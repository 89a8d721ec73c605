import Sdrmm.Engine.ArrayRecordDrain

/-!
# Runs of an array recording

Every run that meets its conditions leaves the recording aligned, whatever the order in which the tap
and the writer take their steps.
-/

namespace Sdrmm.ArrayRecord

variable {α : Type}

/-- The index of the first block that was not empty. -/
def firstIndex : List (Event α) → Option ℕ
  | [] => none
  | .push block :: events => if block.count = 0 then firstIndex events else some block.index
  | .tap :: events => firstIndex events
  | .drain :: events => firstIndex events

section Steps

variable {lanes capacity first stop : ℕ} {signal : ℕ → ℕ → α} {applied : List RecordNote}
  {s : State α} {block : Block α}

theorem Block.Valid.ok {next : Option ℕ} (hvalid : block.Valid signal next)
    (hmarks : ∀ note ∈ block.notes, note.gap? = none ∧ note.isStart = false)
    (hcount : block.count ≠ 0) : block.Ok signal :=
  ⟨Nat.pos_of_ne_zero hcount, hvalid.notes, hmarks, hvalid.raw⟩

theorem Recording.push (hrec : Recording lanes capacity signal first stop applied s)
    (hvalid : Valid signal s (.push block)) (hmeets : Meets s (.push block)) :
    Recording lanes capacity signal first stop applied (s.push block) := by
  rw [State.push]
  split
  · next htap =>
    split_ifs with hcount
    · exact hrec
    · have hok := hrec.tap
      simp only [TapOk, htap] at hok
      obtain ⟨hnext, hnotes⟩ := hok
      refine ⟨hrec.files, hrec.noise, hrec.unread, ?_, ?_, hrec.drain⟩
      · intro lane hlane
        have hqueued := hrec.queued lane hlane
        simp only [State.pushed, htap] at hqueued
        exact hqueued
      · refine ⟨hvalid.ok hmeets hcount, rfl, ?_⟩
        simp only [State.opening, hnext]
        have hstop : stop ≤ block.index := hvalid.order stop hnext
        split_ifs with hgap
        · exact Or.inl ⟨rfl, hgap, hnotes⟩
        · have hindex : stop = block.index := le_antisymm hstop (not_lt.mp hgap)
          exact Or.inr ⟨List.suffix_rfl, hindex, fun note hnote ↦ Or.inl (hindex ▸ hnotes note hnote)⟩
  · exact hrec

/-- The first note starts the recording. -/
theorem Fresh.start (hfresh : Fresh signal s)
    (htap : s.tap = .noting block (.start block.index :: block.notes)) (hblock : block.Ok signal)
    (hnext : s.next = some (block.index + block.count)) :
    Recording lanes capacity signal block.index block.index [] (s.stepTap lanes capacity) := by
  have hstep : s.stepTap lanes capacity =
      { s with notes := [.start block.index], noted := [.start block.index],
               tap := .noting block block.notes } := by
    simp only [State.stepTap, htap, State.note, hfresh.notes, hfresh.noted, List.length_nil]
    rw [if_pos (by decide)]
    rfl
  rw [hstep]
  constructor
  · refine ⟨?_, ?_, ?_, ?_, ?_, [], block.index, ?_, ?_, by simp, fun _ ↦ ⟨rfl, rfl⟩, by rintro _ ⟨⟩⟩
    all_goals simp [hfresh.writer, hfresh.accepted, CollectionWriter.new, CollectionWriter.edge,
      CollectionWriter.place]
  · refine ⟨?_, ?_⟩ <;> simp [hfresh.writer, hfresh.noiseFrom, CollectionWriter.new]
  · refine ⟨rfl, rfl, ?_, ?_, hfresh.position, ?_, ?_, ?_, List.pairwise_singleton .., ?_⟩
    · rintro _ ⟨⟩
    · have hnil : Timely [] := by
        rintro _ _ _ hsplit
        exact absurd hsplit (by simp)
      apply hnil.concat
      rintro ⟨⟩
    · simp [hfresh.writer, CollectionWriter.new]
    · rw [hfresh.writer]
      exact le_rfl
    · rintro _ ⟨⟩
    · rw [hfresh.writer, hfresh.accepted]
      exact (List.range'_eq_nil_iff.mpr (Nat.sub_self _)).symm
  · intro lane _
    simp [State.popped, State.pushed, hfresh.drain, hfresh.writer, hfresh.accepted, hfresh.lanes,
      CollectionWriter.new]
  · refine ⟨hblock, hnext, Or.inr ⟨List.suffix_rfl, rfl, ?_⟩⟩
    intro note hnote
    rw [List.mem_singleton.mp hnote]
    exact Or.inl le_rfl
  · rw [DrainOk, hfresh.drain]
    trivial

/-- What holds of a run whose first block has the index `first`, if it has one. -/
def Invariant (lanes capacity : ℕ) (signal : ℕ → ℕ → α) (s : State α) : Option ℕ → Prop
  | none => Fresh signal s ∧ s.tap = .idle
  | some first => (Fresh signal s ∧ ∃ block, block.index = first ∧ block.Ok signal ∧
        s.tap = .noting block (.start first :: block.notes)) ∨
      ∃ stop applied, Recording lanes capacity signal first stop applied s

theorem Fresh.stepDrain (hfresh : Fresh signal s) : s.stepDrain lanes = s := by
  have hdrain := hfresh.drain
  have hposition := hfresh.position
  have hnotes := hfresh.notes
  cases s
  simp only at hdrain hposition hnotes
  subst hdrain hposition hnotes
  rfl

theorem notesLost_note (s : State α) (note : RecordNote) :
    s.notesLost ≤ (s.note note).notesLost := by
  rw [State.note]
  split_ifs
  · exact le_rfl
  · exact Nat.le_succ _

theorem notesLost_apply (s : State α) (note : RecordNote) :
    (s.apply note).notesLost = s.notesLost := by
  cases note with
  | start index =>
    simp only [State.apply]
    split
    · split_ifs <;> rfl
    · rfl
  | noiseOff index =>
    simp only [State.apply]
    split <;> rfl
  | _ => rfl

/-- A note that was lost stays lost. -/
theorem notesLost_step (s : State α) (event : Event α) :
    s.notesLost ≤ (step lanes capacity s event).notesLost := by
  cases event with
  | push block =>
    simp only [step, State.push]
    split
    · split_ifs <;> exact le_rfl
    · exact le_rfl
  | tap =>
    simp only [step, State.stepTap]
    split
    · exact le_rfl
    · exact notesLost_note s _
    · exact le_rfl
    · split_ifs <;> exact le_rfl
    · split_ifs <;> exact le_rfl
    · exact notesLost_note s _
  | drain =>
    simp only [step, State.stepDrain]
    split
    · split
      · split_ifs <;> exact le_rfl
      · exact le_rfl
    · exact (notesLost_apply { s with notes := s.notes.tail } _).ge
    · exact le_rfl
    · split_ifs <;> exact le_rfl
    · split_ifs <;> exact le_rfl

theorem notesLost_run (s : State α) (events : List (Event α)) :
    s.notesLost ≤ (run lanes capacity s events).notesLost := by
  induction events generalizing s with
  | nil => exact le_rfl
  | cons event events ih => exact (notesLost_step s event).trans (ih _)

theorem firstIndex_cons (event : Event α) (events : List (Event α)) :
    firstIndex (event :: events) = (firstIndex [event]).or (firstIndex events) := by
  cases event with
  | push block =>
    simp only [firstIndex]
    split_ifs <;> rfl
  | tap => rfl
  | drain => rfl

theorem Fresh.push (hfresh : Fresh signal s) (htap : s.tap = .idle)
    (hvalid : Valid signal s (.push block)) (hmeets : Meets s (.push block)) :
    Invariant lanes capacity signal (s.push block) (firstIndex [.push block]) := by
  obtain ⟨_, hnext⟩ | ⟨_, _, hnoting, _⟩ := hfresh.tap
  · simp only [State.push, htap, firstIndex]
    split_ifs with hcount
    · exact ⟨hfresh, htap⟩
    · have hok := hvalid.ok hmeets hcount
      have hnoting : s.opening block ++ block.notes = .start block.index :: block.notes := by
        rw [State.opening, hnext]
        rfl
      rw [hnoting]
      refine Or.inl ⟨⟨hfresh.notes, hfresh.noted, hfresh.accepted, hfresh.lanes, hfresh.position,
        hfresh.noiseFrom, hfresh.writer, hfresh.drain, Or.inr ⟨block, hok, rfl, rfl⟩⟩,
        block, rfl, hok, rfl⟩
  · rw [htap] at hnoting
    cases hnoting

/-- One step of a run that meets its conditions. -/
theorem Invariant.step {first : Option ℕ} (hinv : Invariant lanes capacity signal s first)
    {event : Event α} (hvalid : Valid signal s event) (hmeets : Meets s event)
    (hlost : (step lanes capacity s event).notesLost = 0) :
    Invariant lanes capacity signal (step lanes capacity s event)
      (first.or (firstIndex [event])) := by
  cases first with
  | none =>
    obtain ⟨hfresh, htap⟩ := hinv
    cases event with
    | push block => exact hfresh.push htap hvalid hmeets
    | tap =>
      have hstep : s.stepTap lanes capacity = s := by simp only [State.stepTap, htap]
      simp only [ArrayRecord.step, hstep]
      exact ⟨hfresh, htap⟩
    | drain =>
      simp only [ArrayRecord.step, hfresh.stepDrain]
      exact ⟨hfresh, htap⟩
  | some first =>
    rw [Option.some_or]
    rcases hinv with ⟨hfresh, block, rfl, hblock, htap⟩ | ⟨stop, applied, hrec⟩
    · cases event with
      | push other =>
        have hstep : s.push other = s := by simp only [State.push, htap]
        simp only [ArrayRecord.step, hstep]
        exact Or.inl ⟨hfresh, block, rfl, hblock, htap⟩
      | tap =>
        refine Or.inr ⟨block.index, [], hfresh.start htap hblock ?_⟩
        obtain ⟨hidle, _⟩ | ⟨other, _, hother, hnext⟩ := hfresh.tap
        · rw [htap] at hidle
          cases hidle
        · rw [htap] at hother
          cases hother
          exact hnext
      | drain =>
        simp only [ArrayRecord.step, hfresh.stepDrain]
        exact Or.inl ⟨hfresh, block, rfl, hblock, htap⟩
    · refine Or.inr ?_
      cases event with
      | push block => exact ⟨stop, applied, hrec.push hvalid hmeets⟩
      | tap =>
        obtain ⟨stop', hstep⟩ := hrec.stepTap hmeets hlost
        exact ⟨stop', applied, hstep⟩
      | drain =>
        obtain ⟨applied', hstep⟩ := hrec.stepDrain hmeets
        exact ⟨stop, applied', hstep⟩

theorem Invariant.run {first : Option ℕ} (hinv : Invariant lanes capacity signal s first)
    {events : List (Event α)} (hvalid : ValidRun lanes capacity signal s events)
    (hmeets : MeetsRun lanes capacity s events)
    (hlost : (run lanes capacity s events).notesLost = 0) :
    Invariant lanes capacity signal (run lanes capacity s events)
      (first.or (firstIndex events)) := by
  induction events generalizing s first with
  | nil =>
    rw [firstIndex, Option.or_none]
    exact hinv
  | cons event events ih =>
    have hstep : (ArrayRecord.step lanes capacity s event).notesLost = 0 :=
      Nat.eq_zero_of_le_zero ((notesLost_run _ events).trans hlost.le)
    rw [firstIndex_cons, ← Option.or_assoc]
    exact ih (hinv.step hvalid.1 hmeets.1 hstep) hvalid.2 hmeets.2 hlost

/-! ## Alignment of every run -/

theorem Fresh.new : Fresh signal (State.new : State α) :=
  ⟨rfl, rfl, rfl, fun _ ↦ rfl, rfl, rfl, rfl, rfl, Or.inl ⟨rfl, rfl⟩⟩

theorem Fresh.aligned (hfresh : Fresh signal s) (first : ℕ) : Aligned lanes signal s first := by
  refine ⟨?_, ?_, ?_, ?_⟩
  · intro lane _ i value hvalue
    rw [hfresh.writer] at hvalue
    cases hvalue
  · rw [hfresh.position]
    rintro _ ⟨⟩
  · rw [hfresh.position]
    rintro _ ⟨⟩
  · rw [hfresh.writer]
    rintro _ ⟨⟩

/-- The capture index of a sample of the file. -/
theorem Files.written {writer : CollectionWriter α} {accepted : List ℕ}
    (hfiles : Files lanes signal first applied writer accepted) {i index : ℕ}
    (hindex : (accepted.take writer.samples)[i]? = some index) :
    i < writer.samples ∧ first + writer.place i = index := by
  rw [List.getElem?_take] at hindex
  split_ifs at hindex with hi
  rw [hfiles.places i hi] at hindex
  exact ⟨hi, Option.some.inj hindex⟩

theorem Recording.aligned (hrec : Recording lanes capacity signal first stop applied s) :
    Aligned lanes signal s first := by
  have hfiles := hrec.files
  have hposition : ∀ position ∈ s.position, position = s.writer.edge first := by
    intro position hmem
    have hsome : s.position = some (s.writer.edge first) :=
      (hrec.position_eq (Option.isSome_of_mem hmem)).1
    rw [hsome] at hmem
    exact (Option.some.inj hmem).symm
  refine ⟨?_, hposition, ?_, ?_⟩
  · intro lane hlane i value hvalue
    rw [hfiles.data lane hlane, List.getElem?_map] at hvalue
    obtain ⟨index, hindex, rfl⟩ := Option.map_eq_some_iff.mp hvalue
    rw [(hfiles.written hindex).2]
  · intro position hmem index _ hindex
    rw [hposition position hmem] at hindex
    constructor
    · intro haccepted
      rw [← List.take_append_drop s.writer.samples s.accepted] at haccepted
      rcases List.mem_append.mp haccepted with hwritten | hrest
      · obtain ⟨i, hi⟩ := List.mem_iff_getElem?.mp hwritten
        exact ⟨i, hfiles.written hi⟩
      · rw [hrec.unread.rest] at hrest
        exact absurd (le_of_mem_stretch hrec.unread.within index hrest) (not_le.mpr hindex)
    · rintro ⟨i, hi, rfl⟩
      exact List.mem_of_getElem? (hfiles.places i hi)
  · intro span hspan
    obtain ⟨stop, on, off, hon, hoff, hlength⟩ := hrec.noise.spans span hspan
    have hnoted : ∀ note ∈ applied, note ∈ s.noted := by
      rw [hrec.unread.parts]
      exact fun note hnote ↦ List.mem_append_left _ hnote
    refine ⟨on, off, hnoted _ hon.1, hnoted _ hoff.1, ?_⟩
    rw [← hon.2.2, ← hoff.2.2, ← hlength]

end Steps

/-- A recording stays aligned in every run whose steps all meet its conditions. -/
theorem run_aligned {lanes capacity : ℕ} {signal : ℕ → ℕ → α} {events : List (Event α)}
    (hvalid : ValidRun lanes capacity signal State.new events)
    (hmeets : MeetsRun lanes capacity State.new events)
    (hlost : (run lanes capacity State.new events).notesLost = 0) :
    ∀ first ∈ firstIndex events,
      Aligned lanes signal (run lanes capacity State.new events) first := by
  intro first hfirst
  have hnew : Invariant lanes capacity signal State.new none := ⟨Fresh.new, rfl⟩
  have hinv := hnew.run hvalid hmeets hlost
  rw [Option.none_or, hfirst] at hinv
  rcases hinv with ⟨hfresh, _⟩ | ⟨stop, applied, hrec⟩
  · exact hfresh.aligned first
  · exact hrec.aligned

/-! ## Some runs -/

/-- A signal that tells where each of its samples is from. -/
def counted (lane index : ℕ) : ℕ := 100 * lane + index

/-- A block of the signal. -/
def blockOf (lanes index count : ℕ) (notes : List RecordNote) : Block ℕ where
  raw := (List.range lanes).map fun lane ↦ (List.range' index count).map (counted lane)
  index := index
  notes := notes

/-- The steps of the tap and then those of the writer that follow a block. -/
def after (block : Block ℕ) (taps drains : ℕ) : List (Event ℕ) :=
  .push block :: (List.replicate taps .tap ++ List.replicate drains .drain)

/-- A run with a gap and noise behind it. -/
def gapRun : List (Event ℕ) :=
  after (blockOf 2 0 2 []) 8 10 ++ after (blockOf 2 4 2 [.noiseOn 4, .noiseOff 5]) 10 15

theorem gapRun_aligned :
    Aligned 2 counted (run 2 4 State.new gapRun) 0 ∧
      (run 2 4 State.new gapRun).writer.lanes 1 = [100, 101, 104] ∧
      (run 2 4 State.new gapRun).writer.noise = [(2, 1)] :=
  ⟨run_aligned (by decide) (by decide) (by decide) 0 (by decide),
    by decide, by decide⟩

/-- The writer finds no note, and then a gap is noted and the block behind it pushed. -/
def raceRun : List (Event ℕ) :=
  after (blockOf 1 0 2 []) 6 4 ++ after (blockOf 1 4 2 []) 7 4

/-- A block with a note at its end is dropped and the next one is not. -/
def dropRun : List (Event ℕ) :=
  after (blockOf 1 0 2 []) 6 0 ++ after (blockOf 1 2 2 [.noiseOn 4]) 5 8 ++
    after (blockOf 1 4 2 []) 5 6

/-- A noise note is about a sample before a gap. -/
def lateRun : List (Event ℕ) :=
  after (blockOf 1 0 2 []) 6 8 ++ after (blockOf 1 4 2 [.noiseOn 1, .noiseOff 5]) 9 12

/-- Each of the conditions is needed: what the tap and the writer do in between is enough to move
samples or noise. -/
theorem aligned_needs :
    (ValidRun 1 4 counted State.new raceRun ∧ (run 1 4 State.new raceRun).notesLost = 0 ∧
      firstIndex raceRun = some 0 ∧ ¬Aligned 1 counted (run 1 4 State.new raceRun) 0) ∧
    (ValidRun 1 2 counted State.new dropRun ∧ (run 1 2 State.new dropRun).notesLost = 0 ∧
      firstIndex dropRun = some 0 ∧ ¬Aligned 1 counted (run 1 2 State.new dropRun) 0) ∧
    (ValidRun 1 4 counted State.new lateRun ∧ (run 1 4 State.new lateRun).notesLost = 0 ∧
      firstIndex lateRun = some 0 ∧ ¬Aligned 1 counted (run 1 4 State.new lateRun) 0) := by
  refine ⟨⟨by decide, by decide, by decide, ?_⟩,
    ⟨by decide, by decide, by decide, ?_⟩,
    ⟨by decide, by decide, by decide, ?_⟩⟩
  · intro haligned
    -- The first sample behind the gap is written right after the last one before it.
    have hsample := haligned.samples 0 (by decide) 2 4 (by decide)
    exact absurd hsample (by decide)
  · intro haligned
    have hsample := haligned.samples 0 (by decide) 2 4 (by decide)
    exact absurd hsample (by decide)
  · intro haligned
    have hnoted : (run 1 4 State.new lateRun).noted =
        [.start 0, .gap 2 2, .noiseOn 1, .noiseOff 5] := by decide
    obtain ⟨on, off, hon, _, hspan⟩ := haligned.noise (0, 3) (by decide)
    have hone : on = 1 := by
      rw [hnoted] at hon
      simpa using hon
    -- The noise began with the second sample of the file, not with the first.
    have hstart : fileIndex (run 1 4 State.new lateRun).accepted 1 = 1 := by decide
    have hzero := congrArg Prod.fst hspan
    rw [hone, hstart] at hzero
    exact absurd hzero Nat.zero_ne_one

end Sdrmm.ArrayRecord
