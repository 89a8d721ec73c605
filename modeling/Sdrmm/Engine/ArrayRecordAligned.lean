import Sdrmm.Engine.ArrayRecord
import Sdrmm.Lib.Stretch

/-!
# Alignment of array recordings

Where the samples of a recording end up, for every interleaving of the tap and the writer.  Three
things must not happen for a recording to stay aligned (`Meets`).  The writer looks for a note before it
counts samples, so a gap noted in between goes unseen, together with the samples behind it.  The
tap notes a block that it drops behind the notes that came with the block, so a later one of these
holds the gap back.  And the writer counts a noise note back from its own place in the file as if
nothing were missing in between.  Nothing else can go wrong: every other step keeps the invariant of
`Recording`, those of the tap here and those of the writer in the next module.
-/

namespace Sdrmm.ArrayRecord

namespace RecordNote

def gap? : RecordNote → Option (ℕ × ℕ)
  | gap index missing => some (index, missing)
  | _ => none

def isStart : RecordNote → Bool
  | start _ => true
  | _ => false

def isNoise : RecordNote → Bool
  | noiseOn _ => true
  | noiseOff _ => true
  | _ => false

end RecordNote

/-- The last gap among some notes. -/
def lastGap (notes : List RecordNote) : Option (ℕ × ℕ) := (notes.filterMap RecordNote.gap?).getLast?

variable {α : Type}

/-! ## Runs -/

/-- A block of the signal after what was captured before, with notes up to its end. -/
structure Block.Valid (signal : ℕ → ℕ → α) (next : Option ℕ) (block : Block α) : Prop where
  order : ∀ stop ∈ next, stop ≤ block.index
  notes : ∀ note ∈ block.notes, note.index ≤ block.index + block.count
  raw : block.raw = (List.range block.raw.length).map fun lane ↦
    (List.range' block.index block.count).map (signal lane)

def Valid (signal : ℕ → ℕ → α) (s : State α) : Event α → Prop
  | .push block => block.Valid signal s.next
  | .tap => True
  | .drain => True

/-- What keeps a recording aligned. -/
def Meets (s : State α) : Event α → Prop
  | .push block => ∀ note ∈ block.notes, note.gap? = none ∧ note.isStart = false
  | .tap =>
      match s.tap with
      | .noting _ (note :: _) =>
          note.isNoise = true → ∀ gap ∈ lastGap s.noted, gap.1 + gap.2 ≤ note.index
      | .dropping block => ∀ note ∈ block.notes, note.index ≤ block.index
      | _ => True
  | .drain =>
      match s.drain with
      | .counting none 0 _ => ∀ gap ∈ s.notes.filterMap RecordNote.gap?,
          s.position.getD 0 + (s.lanes 0).length ≤ gap.1
      | _ => True

def ValidRun (lanes capacity : ℕ) (signal : ℕ → ℕ → α) : State α → List (Event α) → Prop
  | _, [] => True
  | s, event :: events =>
      Valid signal s event ∧ ValidRun lanes capacity signal (step lanes capacity s event) events

def MeetsRun (lanes capacity : ℕ) : State α → List (Event α) → Prop
  | _, [] => True
  | s, event :: events =>
      Meets s event ∧ MeetsRun lanes capacity (step lanes capacity s event) events

instance [DecidableEq α] (signal : ℕ → ℕ → α) (next : Option ℕ) (block : Block α) :
    Decidable (block.Valid signal next) :=
  decidable_of_iff
    ((∀ stop ∈ next, stop ≤ block.index) ∧
      (∀ note ∈ block.notes, note.index ≤ block.index + block.count) ∧
      block.raw = (List.range block.raw.length).map fun lane ↦
        (List.range' block.index block.count).map (signal lane))
    ⟨fun h ↦ ⟨h.1, h.2.1, h.2.2⟩, fun h ↦ ⟨h.order, h.notes, h.raw⟩⟩

instance [DecidableEq α] (signal : ℕ → ℕ → α) (s : State α) (event : Event α) :
    Decidable (Valid signal s event) :=
  match event with
  | .push block => inferInstanceAs (Decidable (block.Valid signal s.next))
  | .tap => .isTrue trivial
  | .drain => .isTrue trivial

instance (s : State α) (event : Event α) : Decidable (Meets s event) :=
  match event with
  | .push block =>
      inferInstanceAs (Decidable (∀ note ∈ block.notes, note.gap? = none ∧ note.isStart = false))
  | .tap =>
      match htap : s.tap with
      | .noting _ (note :: _) =>
          decidable_of_iff
            (note.isNoise = true → ∀ gap ∈ lastGap s.noted, gap.1 + gap.2 ≤ note.index)
            (by simp only [Meets, htap])
      | .dropping block =>
          decidable_of_iff (∀ note ∈ block.notes, note.index ≤ block.index)
            (by simp only [Meets, htap])
      | .idle => .isTrue (by simp only [Meets, htap])
      | .noting _ [] => .isTrue (by simp only [Meets, htap])
      | .checking _ _ _ => .isTrue (by simp only [Meets, htap])
      | .pushing _ _ => .isTrue (by simp only [Meets, htap])
  | .drain =>
      match hdrain : s.drain with
      | .counting none 0 _ =>
          decidable_of_iff (∀ gap ∈ s.notes.filterMap RecordNote.gap?,
              s.position.getD 0 + (s.lanes 0).length ≤ gap.1)
            (by simp only [Meets, hdrain])
      | .counting none (_ + 1) _ => .isTrue (by simp only [Meets, hdrain])
      | .counting (some _) _ _ => .isTrue (by simp only [Meets, hdrain])
      | .scanning => .isTrue (by simp only [Meets, hdrain])
      | .applying _ => .isTrue (by simp only [Meets, hdrain])
      | .limiting => .isTrue (by simp only [Meets, hdrain])
      | .taking _ _ _ => .isTrue (by simp only [Meets, hdrain])

instance ValidRun.decidable [DecidableEq α] (lanes capacity : ℕ) (signal : ℕ → ℕ → α) :
    (s : State α) → (events : List (Event α)) → Decidable (ValidRun lanes capacity signal s events)
  | _, [] => .isTrue trivial
  | s, event :: events =>
      have := ValidRun.decidable lanes capacity signal (step lanes capacity s event) events
      inferInstanceAs (Decidable (_ ∧ _))

instance MeetsRun.decidable (lanes capacity : ℕ) :
    (s : State α) → (events : List (Event α)) → Decidable (MeetsRun lanes capacity s events)
  | _, [] => .isTrue trivial
  | s, event :: events =>
      have := MeetsRun.decidable lanes capacity (step lanes capacity s event) events
      inferInstanceAs (Decidable (_ ∧ _))

/-! ## Alignment -/

/-- Where a capture index is in the file: after the samples that were pushed and captured before it. -/
def fileIndex (accepted : List ℕ) (index : ℕ) : ℕ := accepted.countP (· < index)

/-- A recording that starts with the capture index `first` holds every sample in its place, with what
was not pushed left out as gaps and noise where its notes say. -/
structure Aligned (lanes : ℕ) (signal : ℕ → ℕ → α) (s : State α) (first : ℕ) : Prop where
  samples : ∀ lane < lanes, ∀ (i : ℕ) value, (s.writer.lanes lane)[i]? = some value →
    value = signal lane (first + s.writer.place i)
  position : ∀ position ∈ s.position, position = first + s.writer.samples + s.writer.missing
  gaps : ∀ position ∈ s.position, ∀ index, first ≤ index → index < position →
    (index ∈ s.accepted ↔ ∃ i < s.writer.samples, first + s.writer.place i = index)
  noise : ∀ span ∈ s.writer.noise, ∃ on off, .noiseOn on ∈ s.noted ∧ .noiseOff off ∈ s.noted ∧
    span = (fileIndex s.accepted on, fileIndex s.accepted off - fileIndex s.accepted on)

/-! ## The invariant -/

/-- The capture index that the next sample of the file has. -/
def CollectionWriter.edge (writer : CollectionWriter α) (first : ℕ) : ℕ :=
  first + writer.samples + writer.missing

/-- Noise notes come after the gaps before them. -/
def Timely (notes : List RecordNote) : Prop :=
  ∀ before note after, notes = before ++ note :: after → note.isNoise = true →
    ∀ gap ∈ lastGap before, gap.1 + gap.2 ≤ note.index

/-- The file from the last gap that was written on. -/
def LastRun (first edge : ℕ) (applied : List RecordNote) (written : List ℕ) : Prop :=
  ∃ earlier start, written = earlier ++ List.range' start (edge - start) ∧ start ≤ edge ∧
    (∀ x ∈ earlier, x < start) ∧ (lastGap applied = none → start = first ∧ earlier = []) ∧
    ∀ gap ∈ lastGap applied, start = gap.1 + gap.2

/-- What is in the files. -/
structure Files (lanes : ℕ) (signal : ℕ → ℕ → α) (first : ℕ) (applied : List RecordNote)
    (writer : CollectionWriter α) (accepted : List ℕ) : Prop where
  samples_le : writer.samples ≤ accepted.length
  data : ∀ lane < lanes, writer.lanes lane = (accepted.take writer.samples).map (signal lane)
  places : ∀ i < writer.samples, accepted[i]? = some (first + writer.place i)
  captures : ∀ capture ∈ writer.captures, capture.1 ≤ writer.samples
  ahead : ∀ i, writer.samples ≤ i → writer.place i = i + writer.missing
  lastRun : LastRun first (writer.edge first) applied (accepted.take writer.samples)

/-- A note that was applied, and where it was. -/
def NotedAt (applied : List RecordNote) (accepted : List ℕ) (edge : ℕ) (note : ℕ → RecordNote)
    (place index : ℕ) : Prop :=
  note index ∈ applied ∧ index ≤ edge ∧ place = fileIndex accepted index

/-- The noise spans that were written and the one that was begun. -/
structure Noise (applied : List RecordNote) (accepted : List ℕ) (edge : ℕ) (noise : List (ℕ × ℕ))
    (noiseFrom : Option ℕ) : Prop where
  spans : ∀ span ∈ noise, ∃ stop on off, NotedAt applied accepted edge .noiseOn span.1 on ∧
    NotedAt applied accepted edge .noiseOff stop off ∧ span.2 = stop - span.1
  begun : ∀ place ∈ noiseFrom, ∃ on, NotedAt applied accepted edge .noiseOn place on

/-- What is still to be read, up to the capture index `stop` that the tap has got to. -/
structure Unread (first stop : ℕ) (applied notes noted : List RecordNote) (position : Option ℕ)
    (writer : CollectionWriter α) (accepted : List ℕ) : Prop where
  parts : noted = applied ++ notes
  head : noted.head? = some (.start first)
  single : ∀ note ∈ noted.tail, note.isStart = false
  timely : Timely noted
  reached : position = if applied = [] then none else some (writer.edge first)
  unstarted : applied = [] → writer.samples = 0 ∧ writer.missing = 0
  within : GapsWithin (writer.edge first) (notes.filterMap RecordNote.gap?) stop
  positive : ∀ gap ∈ notes.filterMap RecordNote.gap?, 0 < gap.2
  ordered : notes.Pairwise fun note later ↦ ∀ gap ∈ later.gap?, note.index ≤ gap.1
  rest : accepted.drop writer.samples =
    stretch (writer.edge first) (notes.filterMap RecordNote.gap?) stop

def State.pushed (s : State α) (lane : ℕ) : ℕ :=
  match s.tap with
  | .pushing block next =>
      if lane < next then s.accepted.length else s.accepted.length - block.count
  | _ => s.accepted.length

def State.popped (s : State α) (lane : ℕ) : ℕ :=
  match s.drain with
  | .taking ready next _ =>
      if lane < next then s.writer.samples + ready else s.writer.samples
  | _ => s.writer.samples

/-- The queue of each lane holds what was pushed there and not popped yet. -/
def Queued (lanes : ℕ) (signal : ℕ → ℕ → α) (s : State α) : Prop :=
  ∀ lane < lanes, s.popped lane ≤ s.pushed lane ∧ s.lanes lane =
    ((s.accepted.take (s.pushed lane)).drop (s.popped lane)).map (signal lane)

/-- The next samples follow each other. -/
structure Contiguous (first count : ℕ) (writer : CollectionWriter α) (accepted : List ℕ) :
    Prop where
  le : count ≤ (accepted.drop writer.samples).length
  take : (accepted.drop writer.samples).take count = List.range' (writer.edge first) count

/-- The block of a call of `push`. -/
structure Block.Ok (signal : ℕ → ℕ → α) (block : Block α) : Prop where
  count : 0 < block.count
  notes : ∀ note ∈ block.notes, note.index ≤ block.index + block.count
  marks : ∀ note ∈ block.notes, note.gap? = none ∧ note.isStart = false
  raw : block.raw = (List.range block.raw.length).map fun lane ↦
    (List.range' block.index block.count).map (signal lane)

/-- The notes that are not read yet, in a call of `push` for a block. -/
def NotesUpTo (block : Block α) (notes : List RecordNote) : Prop :=
  ∀ note ∈ notes, note.index ≤ block.index ∨ note ∈ block.notes

def TapOk (lanes capacity : ℕ) (signal : ℕ → ℕ → α) (stop : ℕ) (s : State α) : Prop :=
  match s.tap with
  | .idle => s.next = some stop ∧ ∀ note ∈ s.notes, note.index ≤ stop
  | .noting block todo => block.Ok signal ∧ s.next = some (block.index + block.count) ∧
      ((todo = .gap stop (block.index - stop) :: block.notes ∧ stop < block.index ∧
          ∀ note ∈ s.notes, note.index ≤ stop) ∨
        (todo <:+ block.notes ∧ stop = block.index ∧ NotesUpTo block s.notes))
  | .checking block lane room => block.Ok signal ∧ s.next = some (block.index + block.count) ∧
      stop = block.index ∧ NotesUpTo block s.notes ∧ (room = none → lane = 0) ∧
      ∀ slots ∈ room, ∀ other < lane, slots ≤ capacity - (s.lanes other).length
  | .pushing block lane => block.Ok signal ∧ s.next = some stop ∧
      stop = block.index + block.count ∧ block.raw.length = lanes ∧
      (∀ note ∈ s.notes, note.index ≤ stop) ∧
      (∃ earlier, s.accepted = earlier ++ List.range' block.index block.count) ∧
      ∀ other, lane ≤ other → other < lanes → (s.lanes other).length + block.count ≤ capacity
  | .dropping block => block.Ok signal ∧ s.next = some (block.index + block.count) ∧
      stop = block.index ∧ NotesUpTo block s.notes

def DrainOk (lanes : ℕ) (signal : ℕ → ℕ → α) (first : ℕ) (s : State α) : Prop :=
  match s.drain with
  | .scanning => True
  | .applying note => s.notes.head? = some note ∧ s.due note = true
  | .limiting => s.position.isSome
  | .counting limit lane slots => s.position.isSome ∧
      (∀ count ∈ limit, ∃ note, s.notes.head? = some note ∧
        count = note.index - s.writer.edge first) ∧
      (slots = none ↔ lane = 0) ∧
      ∀ count ∈ slots, (∀ other < lane, other < lanes → count ≤ (s.lanes other).length) ∧
        Contiguous first ((limit.map (min count)).getD count) s.writer s.accepted
  | .taking ready lane chunk => s.position.isSome ∧ Contiguous first ready s.writer s.accepted ∧
      (∀ other, lane ≤ other → other < lanes → ready ≤ (s.lanes other).length) ∧
      ∀ other < lane, chunk other =
        ((s.accepted.drop s.writer.samples).take ready).map (signal other)

/-- A recording under way. -/
structure Recording (lanes capacity : ℕ) (signal : ℕ → ℕ → α) (first stop : ℕ)
    (applied : List RecordNote) (s : State α) : Prop where
  files : Files lanes signal first applied s.writer s.accepted
  noise : Noise applied s.accepted (s.writer.edge first) s.writer.noise s.noiseFrom
  unread : Unread first stop applied s.notes s.noted s.position s.writer s.accepted
  queued : Queued lanes signal s
  tap : TapOk lanes capacity signal stop s
  drain : DrainOk lanes signal first s

/-- A recording before its first note. -/
structure Fresh (signal : ℕ → ℕ → α) (s : State α) : Prop where
  notes : s.notes = []
  noted : s.noted = []
  accepted : s.accepted = []
  lanes : ∀ lane, s.lanes lane = []
  position : s.position = none
  noiseFrom : s.noiseFrom = none
  writer : s.writer = .new
  drain : s.drain = .scanning
  tap : (s.tap = .idle ∧ s.next = none) ∨ ∃ block, block.Ok signal ∧
    s.tap = .noting block (.start block.index :: block.notes) ∧
    s.next = some (block.index + block.count)

/-! ## Notes -/

section Notes

variable {first stop : ℕ} {applied notes noted : List RecordNote} {position : Option ℕ}
  {writer : CollectionWriter α} {accepted : List ℕ} {note : RecordNote}

theorem Timely.concat (htimely : Timely noted)
    (hnote : note.isNoise = true → ∀ gap ∈ lastGap noted, gap.1 + gap.2 ≤ note.index) :
    Timely (noted ++ [note]) := by
  intro before other after hsplit hother
  rcases List.eq_nil_or_concat after with rfl | ⟨init, last, rfl⟩
  · obtain ⟨rfl, hlast⟩ := List.append_inj' hsplit rfl
    obtain rfl := List.singleton_inj.mp hlast
    exact hnote hother
  · have hinit : noted ++ [note] = (before ++ other :: init) ++ [last] := by
      rw [hsplit, List.concat_eq_append, List.append_assoc, List.cons_append]
    exact htimely before other init (List.append_inj' hinit rfl).1 hother

theorem Unread.concat_noted (hunread : Unread first stop applied notes noted position writer accepted)
    (note : RecordNote) (hstart : note.isStart = false)
    (hnoise : note.isNoise = true → ∀ gap ∈ lastGap noted, gap.1 + gap.2 ≤ note.index) :
    (noted ++ [note] = applied ++ (notes ++ [note]) ∧
      (noted ++ [note]).head? = some (.start first)) ∧
      (∀ other ∈ (noted ++ [note]).tail, other.isStart = false) ∧ Timely (noted ++ [note]) := by
  have hne : noted ≠ [] := by
    rintro rfl
    exact absurd hunread.head (by simp)
  refine ⟨⟨?_, ?_⟩, ?_, hunread.timely.concat hnoise⟩
  · rw [hunread.parts, List.append_assoc]
  · rw [List.head?_append_of_ne_nil _ hne]
    exact hunread.head
  · rw [List.tail_append_of_ne_nil hne]
    intro other hother
    rcases List.mem_append.mp hother with hold | hnew
    · exact hunread.single other hold
    · rw [List.mem_singleton.mp hnew]
      exact hstart

/-- A note that is not a gap. -/
theorem Unread.concat (hunread : Unread first stop applied notes noted position writer accepted)
    (hgap : note.gap? = none) (hstart : note.isStart = false)
    (hnoise : note.isNoise = true → ∀ gap ∈ lastGap noted, gap.1 + gap.2 ≤ note.index) :
    Unread first stop applied (notes ++ [note]) (noted ++ [note]) position writer accepted := by
  obtain ⟨⟨hnoted, hhead⟩, hsingle, htimely⟩ := hunread.concat_noted note hstart hnoise
  have hgaps : (notes ++ [note]).filterMap RecordNote.gap? = notes.filterMap RecordNote.gap? := by
    rw [List.filterMap_append, List.filterMap_cons_none hgap, List.filterMap_nil, List.append_nil]
  refine ⟨hnoted, hhead, hsingle, htimely, hunread.reached, hunread.unstarted, ?_, ?_, ?_, ?_⟩
  · rw [hgaps]
    exact hunread.within
  · rw [hgaps]
    exact hunread.positive
  · rw [List.pairwise_append]
    refine ⟨hunread.ordered, List.pairwise_singleton .., ?_⟩
    intro earlier _ later hlater gap hgap'
    rw [List.mem_singleton.mp hlater, hgap] at hgap'
    cases hgap'
  · rw [hgaps]
    exact hunread.rest

/-- A gap at the end of what the tap has got to. -/
theorem Unread.concat_gap (hunread : Unread first stop applied notes noted position writer accepted)
    (hnotes : ∀ note ∈ notes, note.index ≤ stop) {missing : ℕ} (hmissing : 0 < missing) :
    Unread first (stop + missing) applied (notes ++ [.gap stop missing])
      (noted ++ [.gap stop missing]) position writer accepted := by
  obtain ⟨⟨hnoted, hhead⟩, hsingle, htimely⟩ :=
    hunread.concat_noted (.gap stop missing) rfl fun hnoise ↦ absurd hnoise Bool.false_ne_true
  have hgaps : (notes ++ [RecordNote.gap stop missing]).filterMap RecordNote.gap? =
      notes.filterMap RecordNote.gap? ++ [(stop, missing)] := List.filterMap_append ..
  refine ⟨hnoted, hhead, hsingle, htimely, hunread.reached, hunread.unstarted, ?_, ?_, ?_, ?_⟩
  · rw [hgaps]
    exact hunread.within.concat missing
  · rw [hgaps]
    intro gap hgap
    rcases List.mem_append.mp hgap with hold | hnew
    · exact hunread.positive gap hold
    · rw [List.mem_singleton.mp hnew]
      exact hmissing
  · rw [List.pairwise_append]
    refine ⟨hunread.ordered, List.pairwise_singleton .., ?_⟩
    intro earlier hearlier later hlater
    rw [List.mem_singleton.mp hlater]
    rintro gap ⟨⟩
    exact hnotes earlier hearlier
  · rw [hgaps, stretch_concat hunread.within]
    exact hunread.rest

/-- The tap goes on to push more samples. -/
theorem Unread.extend (hunread : Unread first stop applied notes noted position writer accepted)
    (hsamples : writer.samples ≤ accepted.length) (count : ℕ) :
    Unread first (stop + count) applied notes noted position writer
      (accepted ++ List.range' stop count) := by
  refine ⟨hunread.parts, hunread.head, hunread.single, hunread.timely, hunread.reached,
    hunread.unstarted, hunread.within.extend count, hunread.positive, hunread.ordered, ?_⟩
  rw [List.drop_append_of_le_length hsamples, hunread.rest, stretch_extend hunread.within]

end Notes

/-! ## Files -/

section Files

variable {lanes first stop edge : ℕ} {signal : ℕ → ℕ → α} {applied : List RecordNote}
  {writer : CollectionWriter α} {accepted : List ℕ} {note : RecordNote}

theorem Files.extend (hfiles : Files lanes signal first applied writer accepted) (more : List ℕ) :
    Files lanes signal first applied writer (accepted ++ more) := by
  have htake : (accepted ++ more).take writer.samples = accepted.take writer.samples :=
    List.take_append_of_le_length hfiles.samples_le
  refine ⟨?_, ?_, ?_, hfiles.captures, hfiles.ahead, ?_⟩
  · exact hfiles.samples_le.trans (List.length_append.symm ▸ Nat.le_add_right _ _)
  · rw [htake]
    exact hfiles.data
  · intro i hi
    rw [List.getElem?_append_left (hi.trans_le hfiles.samples_le)]
    exact hfiles.places i hi
  · rw [htake]
    exact hfiles.lastRun

/-- Later samples do not move an index. -/
theorem fileIndex_append {index : ℕ} {more : List ℕ} (hmore : ∀ x ∈ more, index ≤ x) :
    fileIndex (accepted ++ more) index = fileIndex accepted index := by
  have hzero : more.countP (· < index) = 0 := by
    rw [List.countP_eq_zero]
    intro x hx
    simpa using hmore x hx
  rw [fileIndex, List.countP_append, hzero, add_zero]
  rfl

theorem NotedAt.extend {kind : ℕ → RecordNote} {place index : ℕ}
    (hnoted : NotedAt applied accepted edge kind place index) {more : List ℕ}
    (hmore : ∀ x ∈ more, edge ≤ x) : NotedAt applied (accepted ++ more) edge kind place index := by
  obtain ⟨hmem, hle, hplace⟩ := hnoted
  refine ⟨hmem, hle, ?_⟩
  rw [fileIndex_append fun x hx ↦ hle.trans (hmore x hx)]
  exact hplace

theorem NotedAt.mono {kind : ℕ → RecordNote} {place index edge' : ℕ}
    (hnoted : NotedAt applied accepted edge kind place index) (more : List RecordNote)
    (hedge : edge ≤ edge') : NotedAt (applied ++ more) accepted edge' kind place index :=
  ⟨List.mem_append_left _ hnoted.1, hnoted.2.1.trans hedge, hnoted.2.2⟩

theorem Noise.extend {noise : List (ℕ × ℕ)} {noiseFrom : Option ℕ}
    (hnoise : Noise applied accepted edge noise noiseFrom) {more : List ℕ}
    (hmore : ∀ x ∈ more, edge ≤ x) : Noise applied (accepted ++ more) edge noise noiseFrom where
  spans span hspan := by
    obtain ⟨stop, on, off, hon, hoff, hlength⟩ := hnoise.spans span hspan
    exact ⟨stop, on, off, hon.extend hmore, hoff.extend hmore, hlength⟩
  begun place hplace := by
    obtain ⟨on, hon⟩ := hnoise.begun place hplace
    exact ⟨on, hon.extend hmore⟩

theorem Noise.mono {noise : List (ℕ × ℕ)} {noiseFrom : Option ℕ} {edge' : ℕ}
    (hnoise : Noise applied accepted edge noise noiseFrom) (more : List RecordNote)
    (hedge : edge ≤ edge') : Noise (applied ++ more) accepted edge' noise noiseFrom where
  spans span hspan := by
    obtain ⟨stop, on, off, hon, hoff, hlength⟩ := hnoise.spans span hspan
    exact ⟨stop, on, off, hon.mono more hedge, hoff.mono more hedge, hlength⟩
  begun place hplace := by
    obtain ⟨on, hon⟩ := hnoise.begun place hplace
    exact ⟨on, hon.mono more hedge⟩

theorem Contiguous.extend {count : ℕ} (hcontiguous : Contiguous first count writer accepted)
    (hsamples : writer.samples ≤ accepted.length) (more : List ℕ) :
    Contiguous first count writer (accepted ++ more) := by
  have hdrop : (accepted ++ more).drop writer.samples = accepted.drop writer.samples ++ more :=
    List.drop_append_of_le_length hsamples
  constructor
  · rw [hdrop, List.length_append]
    exact hcontiguous.le.trans (Nat.le_add_right _ _)
  · rw [hdrop, List.take_append_of_le_length hcontiguous.le]
    exact hcontiguous.take

/-! ### Writing -/

theorem place_mark {i : ℕ} (hi : i < writer.samples) : writer.mark.place i = writer.place i := by
  have hlater : ¬writer.samples ≤ i := not_le.mpr hi
  simp [CollectionWriter.place, CollectionWriter.mark, hlater]

theorem place_mark_of_le {i : ℕ} (hi : writer.samples ≤ i) :
    writer.mark.place i = i + writer.missing := by
  simp only [CollectionWriter.place, CollectionWriter.mark, List.reverse_append,
    List.reverse_singleton, List.singleton_append, List.find?_cons, hi, decide_true]
  omega

theorem lastGap_concat_of_none (hgap : note.gap? = none) :
    lastGap (applied ++ [note]) = lastGap applied := by
  rw [lastGap, List.filterMap_append, List.filterMap_cons_none hgap, List.filterMap_nil,
    List.append_nil, lastGap]

theorem lastGap_concat_gap (index missing : ℕ) :
    lastGap (applied ++ [.gap index missing]) = some (index, missing) := by
  rw [lastGap, List.filterMap_append]
  exact List.getLast?_concat

/-- What was written lies before the edge. -/
theorem LastRun.lt_edge {written : List ℕ} (hrun : LastRun first edge applied written) :
    ∀ x ∈ written, x < edge := by
  obtain ⟨earlier, start, rfl, hle, hearlier, _⟩ := hrun
  intro x hx
  rcases List.mem_append.mp hx with hx | hx
  · exact (hearlier x hx).trans_le hle
  · have := List.mem_range'_1.mp hx
    omega

theorem Files.concat (hfiles : Files lanes signal first applied writer accepted)
    (hgap : note.gap? = none) : Files lanes signal first (applied ++ [note]) writer accepted := by
  refine ⟨hfiles.samples_le, hfiles.data, hfiles.places, hfiles.captures, hfiles.ahead, ?_⟩
  rw [LastRun, lastGap_concat_of_none hgap]
  exact hfiles.lastRun

theorem Files.mark (hfiles : Files lanes signal first applied writer accepted) :
    Files lanes signal first applied writer.mark accepted := by
  refine ⟨hfiles.samples_le, hfiles.data, ?_, ?_, ?_, hfiles.lastRun⟩
  · intro i hi
    change i < writer.samples at hi
    rw [place_mark hi]
    exact hfiles.places i hi
  · intro capture hcapture
    rcases List.mem_append.mp hcapture with hold | hnew
    · exact hfiles.captures capture hold
    · rw [List.mem_singleton.mp hnew]
      exact le_rfl
  · intro i hi
    exact place_mark_of_le hi

theorem Files.remark (hfiles : Files lanes signal first applied writer accepted) :
    Files lanes signal first applied writer.remark accepted := by
  rw [CollectionWriter.remark]
  split_ifs
  · exact hfiles
  · exact hfiles.mark

theorem Files.gap (hfiles : Files lanes signal first applied writer accepted) (missing : ℕ) :
    Files lanes signal first (applied ++ [.gap (writer.edge first) missing]) (writer.gap missing)
      accepted := by
  have hrun : LastRun first (writer.edge first + missing)
      (applied ++ [.gap (writer.edge first) missing]) (accepted.take writer.samples) := by
    refine ⟨accepted.take writer.samples, writer.edge first + missing, by simp, le_rfl, ?_, ?_, ?_⟩
    · intro x hx
      exact (hfiles.lastRun.lt_edge x hx).trans_le (Nat.le_add_right _ _)
    · rw [lastGap_concat_gap]
      rintro ⟨⟩
    · rw [lastGap_concat_gap]
      rintro gap ⟨⟩
      rfl
  rw [CollectionWriter.gap]
  split_ifs with hzero
  · subst hzero
    exact ⟨hfiles.samples_le, hfiles.data, hfiles.places, hfiles.captures, hfiles.ahead, hrun⟩
  · refine ⟨hfiles.samples_le, hfiles.data, ?_, ?_, ?_, ?_⟩
    · intro i hi
      change i < writer.samples at hi
      rw [place_mark (by exact hi)]
      exact hfiles.places i hi
    · intro capture hcapture
      rcases List.mem_append.mp hcapture with hold | hnew
      · exact hfiles.captures capture hold
      · rw [List.mem_singleton.mp hnew]
        exact le_rfl
    · intro i hi
      exact place_mark_of_le (by exact hi)
    · rw [CollectionWriter.edge, add_assoc] at hrun
      rw [CollectionWriter.edge]
      exact hrun

theorem Files.write (hfiles : Files lanes signal first applied writer accepted) {count : ℕ}
    (hcontiguous : Contiguous first count writer accepted) {chunk : ℕ → List α}
    (hchunk : ∀ lane < lanes, chunk lane =
      ((accepted.drop writer.samples).take count).map (signal lane)) :
    Files lanes signal first applied (writer.write chunk count) accepted := by
  have hle := hfiles.samples_le
  have hcount := hcontiguous.le
  rw [List.length_drop] at hcount
  have htake : accepted.take (writer.samples + count) =
      accepted.take writer.samples ++ List.range' (writer.edge first) count := by
    rw [List.take_add, hcontiguous.take]
  refine ⟨?_, ?_, ?_, ?_, ?_, ?_⟩
  · change writer.samples + count ≤ accepted.length
    omega
  · intro lane hlane
    change writer.lanes lane ++ chunk lane = _
    rw [hfiles.data lane hlane, hchunk lane hlane, ← List.map_append, ← List.take_add]
    rfl
  · intro i hi
    change i < writer.samples + count at hi
    change accepted[i]? = some (first + writer.place i)
    by_cases hold : i < writer.samples
    · exact hfiles.places i hold
    · have hnew : (accepted.take (writer.samples + count))[i]? =
          some (writer.edge first + (i - writer.samples)) := by
        rw [htake, List.getElem?_append_right (by rw [List.length_take]; omega), List.length_take,
          min_eq_left hle, List.getElem?_range' (by omega), one_mul]
      rw [List.getElem?_take_of_lt hi] at hnew
      rw [hnew, hfiles.ahead i (by omega), CollectionWriter.edge]
      congr 1
      omega
  · intro capture hcapture
    exact (hfiles.captures capture hcapture).trans (Nat.le_add_right _ _)
  · intro i hi
    change writer.samples + count ≤ i at hi
    exact hfiles.ahead i (by omega)
  · obtain ⟨earlier, start, hwritten, hstart, hrest⟩ := hfiles.lastRun
    refine ⟨earlier, start, ?_, ?_, hrest⟩
    · change accepted.take (writer.samples + count) =
        earlier ++ List.range' start (first + (writer.samples + count) + writer.missing - start)
      rw [htake, hwritten, List.append_assoc]
      congr 1
      rw [CollectionWriter.edge] at hstart ⊢
      rw [show first + (writer.samples + count) + writer.missing - start =
        first + writer.samples + writer.missing - start + count by omega, ← List.range'_append_1,
        show start + (first + writer.samples + writer.missing - start) =
          first + writer.samples + writer.missing by omega]
    · change start ≤ first + (writer.samples + count) + writer.missing
      rw [CollectionWriter.edge] at hstart
      omega

/-- Counting back from the edge of the file finds an index, if no gap lies in between. -/
theorem Files.fileIndex_eq (hfiles : Files lanes signal first applied writer accepted) {index : ℕ}
    (hindex : index ≤ writer.edge first)
    (hrest : ∀ x ∈ accepted.drop writer.samples, writer.edge first ≤ x)
    (hgap : ∀ gap ∈ lastGap applied, gap.1 + gap.2 ≤ index) :
    writer.samples - (writer.edge first - index) = fileIndex accepted index := by
  obtain ⟨earlier, start, hwritten, hstart, hearlier, hnone, hsome⟩ := hfiles.lastRun
  have hlength : writer.samples = earlier.length + (writer.edge first - start) := by
    have := congrArg List.length hwritten
    rw [List.length_take, min_eq_left hfiles.samples_le, List.length_append,
      List.length_range'] at this
    exact this
  have hcount : ∀ begin count : ℕ, (List.range' begin count).countP (· < index) =
      min count (index - begin) := by
    intro begin count
    induction count generalizing begin with
    | zero => simp
    | succ count ih =>
      rw [List.range'_succ, List.countP_cons, ih]
      simp only [decide_eq_true_iff]
      split_ifs <;> omega
  have hindexed : fileIndex accepted index =
      earlier.countP (· < index) + min (writer.edge first - start) (index - start) := by
    rw [← List.take_append_drop writer.samples accepted,
      fileIndex_append fun x hx ↦ hindex.trans (hrest x hx), hwritten, fileIndex,
      List.countP_append, hcount]
  rw [hindexed]
  cases hlast : lastGap applied with
  | none =>
    obtain ⟨rfl, rfl⟩ := hnone hlast
    simp only [List.length_nil, List.countP_nil] at hlength ⊢
    omega
  | some gap =>
    have hbefore : start ≤ index := by
      rw [hsome gap hlast]
      exact hgap gap hlast
    have hall : earlier.countP (· < index) = earlier.length := by
      rw [List.countP_eq_length]
      intro x hx
      exact decide_eq_true ((hearlier x hx).trans_le hbefore)
    rw [hall]
    omega

end Files

/-! ## What one thread leaves to the other -/

section Threads

variable {lanes capacity first stop : ℕ} {signal : ℕ → ℕ → α} {applied : List RecordNote}
  {s s' : State α}

/-- The writer does not mind more notes and more samples behind those it knows of. -/
theorem DrainOk.mono (hok : DrainOk lanes signal first s)
    (hsamples : s.writer.samples ≤ s.accepted.length) (hdrain : s'.drain = s.drain)
    (hposition : s'.position = s.position) (hwriter : s'.writer = s.writer)
    (hlanes : ∀ lane < lanes, (s.lanes lane).length ≤ (s'.lanes lane).length) (more : List ℕ)
    (haccepted : s'.accepted = s.accepted ++ more)
    (hhead : ∀ note, s.notes.head? = some note → s'.notes.head? = some note) :
    DrainOk lanes signal first s' := by
  rw [DrainOk] at hok ⊢
  rw [hdrain]
  cases hcase : s.drain with
  | scanning => trivial
  | applying note =>
    rw [hcase] at hok
    refine ⟨hhead note hok.1, ?_⟩
    have hdue : s'.due note = s.due note := by
      unfold State.due
      rw [hposition]
    rw [hdue]
    exact hok.2
  | limiting =>
    rw [hcase] at hok
    rw [hposition]
    exact hok
  | counting limit lane slots =>
    rw [hcase] at hok
    obtain ⟨hsome, hlimit, hzero, hslots⟩ := hok
    refine ⟨hposition ▸ hsome, ?_, hzero, ?_⟩
    · intro count hcount
      obtain ⟨note, hnote, hindex⟩ := hlimit count hcount
      rw [hwriter]
      exact ⟨note, hhead note hnote, hindex⟩
    · intro count hcount
      obtain ⟨hfound, hcontiguous⟩ := hslots count hcount
      refine ⟨fun other hother hlt ↦ (hfound other hother hlt).trans (hlanes other hlt), ?_⟩
      rw [hwriter, haccepted]
      exact hcontiguous.extend hsamples more
  | taking ready lane chunk =>
    rw [hcase] at hok
    obtain ⟨hsome, hcontiguous, hready, hchunk⟩ := hok
    refine ⟨hposition ▸ hsome, ?_, ?_, ?_⟩
    · rw [hwriter, haccepted]
      exact hcontiguous.extend hsamples more
    · exact fun other hother hlt ↦ (hready other hother hlt).trans (hlanes other hlt)
    · intro other hother
      rw [hwriter, haccepted, List.drop_append_of_le_length hsamples,
        List.take_append_of_le_length hcontiguous.le]
      exact hchunk other hother

/-- The tap does not mind fewer notes and fewer samples in the queues. -/
theorem TapOk.mono (hok : TapOk lanes capacity signal stop s) (htap : s'.tap = s.tap)
    (hnext : s'.next = s.next) (haccepted : s'.accepted = s.accepted)
    (hnotes : ∀ note ∈ s'.notes, note ∈ s.notes)
    (hlanes : ∀ lane, (s'.lanes lane).length ≤ (s.lanes lane).length) :
    TapOk lanes capacity signal stop s' := by
  rw [TapOk] at hok ⊢
  rw [htap, hnext]
  cases hcase : s.tap with
  | idle =>
    rw [hcase] at hok
    exact ⟨hok.1, fun note hnote ↦ hok.2 note (hnotes note hnote)⟩
  | noting block todo =>
    rw [hcase] at hok
    obtain ⟨hblock, hstop, htodo⟩ := hok
    refine ⟨hblock, hstop, htodo.imp ?_ ?_⟩
    · exact fun hgap ↦ ⟨hgap.1, hgap.2.1, fun note hnote ↦ hgap.2.2 note (hnotes note hnote)⟩
    · exact fun hmarks ↦ ⟨hmarks.1, hmarks.2.1, fun note hnote ↦ hmarks.2.2 note (hnotes note hnote)⟩
  | checking block lane room =>
    rw [hcase] at hok
    obtain ⟨hblock, hstop, hindex, hupTo, hnone, hroom⟩ := hok
    refine ⟨hblock, hstop, hindex, fun note hnote ↦ hupTo note (hnotes note hnote), hnone, ?_⟩
    intro slots hslots other hother
    exact (hroom slots hslots other hother).trans (Nat.sub_le_sub_left (hlanes other) capacity)
  | pushing block lane =>
    rw [hcase] at hok
    obtain ⟨hblock, hstop, hindex, hlength, hupTo, hearlier, hroom⟩ := hok
    refine ⟨hblock, hstop, hindex, hlength, fun note hnote ↦ hupTo note (hnotes note hnote), ?_, ?_⟩
    · rwa [haccepted]
    · intro other hother hlt
      have := hroom other hother hlt
      have := hlanes other
      omega
  | dropping block =>
    rw [hcase] at hok
    obtain ⟨hblock, hstop, hindex, hupTo⟩ := hok
    exact ⟨hblock, hstop, hindex, fun note hnote ↦ hupTo note (hnotes note hnote)⟩

end Threads

/-! ## Steps of the tap -/

section TapSteps

variable {lanes capacity first stop : ℕ} {signal : ℕ → ℕ → α} {applied : List RecordNote}
  {s : State α} {block : Block α} {note : RecordNote}

theorem note_of_notesLost (hlost : (s.note note).notesLost = 0) :
    s.note note = { s with notes := s.notes ++ [note], noted := s.noted ++ [note] } := by
  rw [State.note] at hlost ⊢
  split_ifs at hlost ⊢
  rfl

/-- A step of the tap that goes on to the next operation and changes nothing else. -/
theorem Recording.withTap (hrec : Recording lanes capacity signal first stop applied s) {tap : Tap α}
    (hpushed : ∀ lane < lanes, ({ s with tap := tap } : State α).pushed lane = s.pushed lane)
    (htap : TapOk lanes capacity signal stop { s with tap := tap }) :
    Recording lanes capacity signal first stop applied { s with tap := tap } where
  files := hrec.files
  noise := hrec.noise
  unread := hrec.unread
  queued := by
    intro lane hlane
    rw [hpushed lane hlane]
    exact hrec.queued lane hlane
  tap := htap
  drain := hrec.drain

/-- A note goes into its queue. -/
theorem Recording.withNote {stop' : ℕ} (hrec : Recording lanes capacity signal first stop applied s)
    {tap : Tap α} (hpushed : ∀ lane, ({ s with tap := tap } : State α).pushed lane = s.pushed lane)
    (dropped : ℕ)
    (hunread : Unread first stop' applied (s.notes ++ [note]) (s.noted ++ [note]) s.position s.writer
      s.accepted)
    (htap : TapOk lanes capacity signal stop'
      { s with notes := s.notes ++ [note], noted := s.noted ++ [note], tap := tap }) :
    Recording lanes capacity signal first stop' applied
      { s with notes := s.notes ++ [note], noted := s.noted ++ [note], tap := tap,
               dropped := dropped } where
  files := hrec.files
  noise := hrec.noise
  unread := hunread
  queued := by
    intro lane hlane
    have hqueued := hrec.queued lane hlane
    rw [← hpushed lane] at hqueued
    exact hqueued
  tap := htap
  drain := by
    refine hrec.drain.mono hrec.files.samples_le rfl rfl rfl (fun _ _ ↦ le_rfl) []
      (List.append_nil _).symm ?_
    intro head hhead
    cases hnotes : s.notes with
    | nil =>
      rw [hnotes] at hhead
      cases hhead
    | cons first rest =>
      rw [hnotes] at hhead
      exact hhead

theorem Recording.stepTap_noting {todo : List RecordNote}
    (hrec : Recording lanes capacity signal first stop applied s)
    (htap : s.tap = .noting block (note :: todo)) (hmeets : Meets s .tap)
    (hlost : (s.stepTap lanes capacity).notesLost = 0) :
    ∃ stop', Recording lanes capacity signal first stop' applied (s.stepTap lanes capacity) := by
  have hok := hrec.tap
  simp only [TapOk, htap] at hok
  simp only [Meets, htap] at hmeets
  simp only [State.stepTap, htap] at hlost ⊢
  rw [note_of_notesLost hlost]
  obtain ⟨hblock, hnext, hcase⟩ := hok
  have hpushed : ∀ lane, ({ s with tap := .noting block todo } : State α).pushed lane =
      s.pushed lane := by
    intro lane
    simp only [State.pushed, htap]
  rcases hcase with ⟨htodo, hlt, hupTo⟩ | ⟨hsuffix, hstop, hupTo⟩
  · obtain ⟨rfl, rfl⟩ := List.cons.inj htodo
    refine ⟨stop + (block.index - stop), ?_⟩
    apply hrec.withNote hpushed s.dropped (hrec.unread.concat_gap hupTo (Nat.sub_pos_of_lt hlt))
    refine ⟨hblock, hnext, Or.inr ⟨List.suffix_rfl, by omega, ?_⟩⟩
    intro other hother
    rcases List.mem_append.mp hother with hold | hnew
    · exact Or.inl ((hupTo other hold).trans hlt.le)
    · rw [List.mem_singleton.mp hnew]
      exact Or.inl hlt.le
  · have hmem : note ∈ block.notes := hsuffix.subset (List.mem_cons_self ..)
    have hmark := hblock.marks note hmem
    refine ⟨stop, hrec.withNote hpushed s.dropped (hrec.unread.concat hmark.1 hmark.2 hmeets) ?_⟩
    refine ⟨hblock, hnext, Or.inr ⟨?_, hstop, ?_⟩⟩
    · exact (List.suffix_cons note todo).trans hsuffix
    · intro other hother
      rcases List.mem_append.mp hother with hold | hnew
      · exact hupTo other hold
      · rw [List.mem_singleton.mp hnew]
        exact Or.inr hmem

theorem Recording.stepTap_dropping (hrec : Recording lanes capacity signal first stop applied s)
    (htap : s.tap = .dropping block) (hmeets : Meets s .tap)
    (hlost : (s.stepTap lanes capacity).notesLost = 0) :
    ∃ stop', Recording lanes capacity signal first stop' applied (s.stepTap lanes capacity) := by
  have hok := hrec.tap
  simp only [TapOk, htap] at hok
  simp only [Meets, htap] at hmeets
  simp only [State.stepTap, htap] at hlost ⊢
  rw [note_of_notesLost hlost]
  obtain ⟨hblock, hnext, rfl, hupTo⟩ := hok
  have hpushed : ∀ lane, ({ s with tap := .idle } : State α).pushed lane = s.pushed lane := by
    intro lane
    simp only [State.pushed, htap]
  have hindex : ∀ other ∈ s.notes, other.index ≤ block.index := fun other hother ↦
    (hupTo other hother).elim id (hmeets other)
  refine ⟨block.index + block.count, ?_⟩
  apply hrec.withNote hpushed (s.dropped + block.count)
    (hrec.unread.concat_gap hindex hblock.count)
  refine ⟨hnext, ?_⟩
  intro other hother
  rcases List.mem_append.mp hother with hold | hnew
  · exact (hindex other hold).trans (Nat.le_add_right _ _)
  · rw [List.mem_singleton.mp hnew]
    exact Nat.le_add_right _ _

/-- The block has room in every lane and goes on to be pushed. -/
theorem Recording.accept (hrec : Recording lanes capacity signal first block.index applied s)
    (hpushed : ∀ lane, s.pushed lane = s.accepted.length) (hblock : block.Ok signal)
    (hnext : s.next = some (block.index + block.count)) (hlength : block.raw.length = lanes)
    (hupTo : NotesUpTo block s.notes)
    (hroom : ∀ lane < lanes, (s.lanes lane).length + block.count ≤ capacity) :
    Recording lanes capacity signal first (block.index + block.count) applied
      { s with
        tap := .pushing block 0
        accepted := s.accepted ++ List.range' block.index block.count } where
  files := hrec.files.extend _
  noise := by
    apply hrec.noise.extend
    intro x hx
    exact hrec.unread.within.le.trans (List.mem_range'_1.mp hx).1
  unread := hrec.unread.extend hrec.files.samples_le _
  queued := by
    intro lane hlane
    have hqueued := hrec.queued lane hlane
    rw [hpushed, List.take_length] at hqueued
    have hlength : (s.accepted ++ List.range' block.index block.count).length - block.count =
        s.accepted.length := by
      rw [List.length_append, List.length_range', Nat.add_sub_cancel]
    simp only [State.pushed, Nat.not_lt_zero, if_false]
    rw [hlength, List.take_left' rfl]
    exact hqueued
  tap := by
    refine ⟨hblock, hnext, rfl, hlength, ?_, ⟨s.accepted, rfl⟩, fun lane _ ↦ hroom lane⟩
    intro note hnote
    exact (hupTo note hnote).elim (fun hle ↦ hle.trans (Nat.le_add_right _ _)) (hblock.notes note)
  drain := hrec.drain.mono hrec.files.samples_le rfl rfl rfl (fun _ _ ↦ le_rfl) _ rfl
    fun _ hhead ↦ hhead

theorem Recording.stepTap_checking {lane : ℕ} {room : Option ℕ}
    (hrec : Recording lanes capacity signal first stop applied s)
    (htap : s.tap = .checking block lane room) :
    ∃ stop', Recording lanes capacity signal first stop' applied (s.stepTap lanes capacity) := by
  have hok := hrec.tap
  simp only [TapOk, htap] at hok
  obtain ⟨hblock, hnext, rfl, hupTo, hnone, hroom⟩ := hok
  simp only [State.stepTap, htap]
  split_ifs with hlane hdrop
  · refine ⟨block.index, hrec.withTap (fun other _ ↦ by simp only [State.pushed, htap]) ?_⟩
    refine ⟨hblock, hnext, rfl, hupTo, by simp, ?_⟩
    rintro slots ⟨⟩ other hother
    cases room with
    | none =>
      obtain rfl := hnone rfl
      obtain rfl : other = 0 := by omega
      exact le_rfl
    | some slots =>
      rcases Nat.lt_succ_iff_lt_or_eq.mp hother with hbefore | rfl
      · exact (min_le_right _ _).trans (hroom slots rfl other hbefore)
      · exact min_le_left _ _
  · refine ⟨block.index, hrec.withTap (fun other _ ↦ by simp only [State.pushed, htap]) ?_⟩
    exact ⟨hblock, hnext, rfl, hupTo⟩
  · rw [not_or, not_lt, not_not] at hdrop
    refine ⟨_, hrec.accept (fun other ↦ by simp only [State.pushed, htap]) hblock hnext hdrop.2 hupTo ?_⟩
    intro other hother
    have hcount := hblock.count
    cases room with
    | none => exact absurd hdrop.1 (not_le.mpr hcount)
    | some slots =>
      have hslots := hroom slots rfl other (by omega)
      have hle : block.count ≤ slots := hdrop.1
      omega

/-- The samples of one lane go into its queue. -/
theorem Recording.pushLane {lane : ℕ}
    (hrec : Recording lanes capacity signal first stop applied s)
    (htap : s.tap = .pushing block lane) (hlane : lane < lanes) :
    Recording lanes capacity signal first stop applied
      { s with
        lanes := Function.update s.lanes lane
          (s.lanes lane ++ (List.range' block.index block.count).map (signal lane))
        tap := .pushing block (lane + 1) } := by
  have hok := hrec.tap
  simp only [TapOk, htap] at hok
  obtain ⟨hblock, hnext, hindex, hlength, hupTo, ⟨earlier, hearlier⟩, hroom⟩ := hok
  refine ⟨hrec.files, hrec.noise, hrec.unread, ?_, ?_, ?_⟩
  · intro other hother
    obtain ⟨hle, hqueue⟩ := hrec.queued other hother
    simp only [State.pushed, htap] at hle hqueue ⊢
    by_cases hsame : other = lane
    · subst hsame
      have hcount : s.accepted.length - block.count = earlier.length := by
        rw [hearlier, List.length_append, List.length_range', Nat.add_sub_cancel]
      rw [if_neg (lt_irrefl other), hcount] at hle hqueue
      rw [if_pos (Nat.lt_succ_self other), List.take_length, Function.update_self]
      refine ⟨hle.trans ?_, ?_⟩
      · rw [← hcount]
        exact Nat.sub_le _ _
      · rw [hqueue, hearlier, List.take_left' rfl]
        change _ = ((earlier ++ List.range' block.index block.count).drop (s.popped other)).map _
        rw [List.drop_append_of_le_length hle, List.map_append]
    · rw [Function.update_of_ne hsame]
      by_cases hbefore : other < lane
      · rw [if_pos hbefore] at hle hqueue
        rw [if_pos (Nat.lt_succ_of_lt hbefore)]
        exact ⟨hle, hqueue⟩
      · rw [if_neg hbefore] at hle hqueue
        rw [if_neg (by omega)]
        exact ⟨hle, hqueue⟩
  · refine ⟨hblock, hnext, hindex, hlength, hupTo, ⟨earlier, hearlier⟩, ?_⟩
    intro other hother hlt
    have hne : other ≠ lane := by omega
    simp only [Function.update_of_ne hne]
    exact hroom other (by omega) hlt
  · refine hrec.drain.mono hrec.files.samples_le rfl rfl rfl ?_ [] (List.append_nil _).symm
      fun _ hhead ↦ hhead
    intro other _
    by_cases hsame : other = lane
    · subst hsame
      simp only [Function.update_self, List.length_append]
      exact Nat.le_add_right _ _
    · simp only [Function.update_of_ne hsame]
      exact le_rfl

theorem Recording.stepTap_pushing {lane : ℕ}
    (hrec : Recording lanes capacity signal first stop applied s)
    (htap : s.tap = .pushing block lane) :
    Recording lanes capacity signal first stop applied (s.stepTap lanes capacity) := by
  have hok := hrec.tap
  simp only [TapOk, htap] at hok
  obtain ⟨hblock, hnext, hindex, hlength, hupTo, _, hroom⟩ := hok
  simp only [State.stepTap, htap]
  by_cases hlane : lane < lanes
  · have hsamples : block.raw.getD lane [] =
        (List.range' block.index block.count).map (signal lane) := by
      rw [hblock.raw, List.getD_eq_getElem?_getD, List.getElem?_map,
        List.getElem?_range (by omega)]
      rfl
    have hfits : (s.lanes lane).length +
        ((List.range' block.index block.count).map (signal lane)).length ≤ capacity := by
      rw [List.length_map, List.length_range']
      exact hroom lane le_rfl hlane
    rw [if_pos hlane, hsamples, if_pos hfits]
    exact hrec.pushLane htap hlane
  · have hpushed : ∀ other < lanes, ({ s with tap := .idle } : State α).pushed other =
        s.pushed other := by
      intro other hother
      simp only [State.pushed, htap, if_pos (show other < lane by omega)]
    rw [if_neg hlane]
    exact hrec.withTap hpushed ⟨hnext, hupTo⟩

/-- A step of the tap keeps a recording as it should be. -/
theorem Recording.stepTap (hrec : Recording lanes capacity signal first stop applied s)
    (hmeets : Meets s .tap) (hlost : (s.stepTap lanes capacity).notesLost = 0) :
    ∃ stop', Recording lanes capacity signal first stop' applied (s.stepTap lanes capacity) := by
  cases htap : s.tap with
  | idle =>
    refine ⟨stop, ?_⟩
    simp only [State.stepTap, htap]
    exact hrec
  | noting block todo =>
    cases todo with
    | nil =>
      have hok := hrec.tap
      simp only [TapOk, htap] at hok
      obtain ⟨hblock, hnext, ⟨hgap, _⟩ | ⟨_, hstop, hupTo⟩⟩ := hok
      · cases hgap
      · refine ⟨stop, ?_⟩
        simp only [State.stepTap, htap]
        apply hrec.withTap (fun other _ ↦ by simp only [State.pushed, htap])
        exact ⟨hblock, hnext, hstop, hupTo, fun _ ↦ rfl, by rintro _ ⟨⟩⟩
    | cons note todo => exact hrec.stepTap_noting htap hmeets hlost
  | checking block lane room => exact hrec.stepTap_checking htap
  | pushing block lane => exact ⟨stop, hrec.stepTap_pushing htap⟩
  | dropping block => exact hrec.stepTap_dropping htap hmeets hlost

end TapSteps

end Sdrmm.ArrayRecord
