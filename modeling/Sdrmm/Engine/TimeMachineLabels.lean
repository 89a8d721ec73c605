import Sdrmm.Engine.TimeMachineCapture

/-!
# The frequency of the first segment

The engine creates the writer of a capture on the centre of the armed history (`capture_time_machine` of
`engine/src/history.rs`), which retunes move at once (`patch_device_quietly` of
`engine/src/device_ops.rs`), while the keeper takes the centre of the oldest sample it holds for the
recording's current one.  Centres are whole hertz.

The first segment is labelled with the one and compared with the other: the labels are right when they
agree whenever a capture begins.
-/

namespace Sdrmm.TimeMachine

/-! ## The engine -/

/-- `requested` are the centres of the writers that are on their way to the keeper. -/
structure Armed (α : Type) where
  centerHz : ℤ
  requested : List ℤ
  machine : State α ℤ

inductive ArmedEvent (α : Type)
  | retune (centerHz : ℤ)
  | capture
  | begin
  | push (samples : List α) (centerHz : ℤ)
  | offer
  | look
  | drain (wrap : ℕ)
  | close

namespace Armed

variable {α : Type}

def start (config : Config ℤ) (silence : α) : Armed α :=
  ⟨config.centerHz, [], TimeMachine.start config silence⟩

/-- The threads of the machine take a step of their own. -/
def machineStep (config : Config ℤ) (armed : Armed α) (event : Event α ℤ) : Option (Armed α) :=
  (step config armed.machine event).map fun machine ↦ { armed with machine := machine }

def step (config : Config ℤ) (armed : Armed α) : ArmedEvent α → Option (Armed α)
  | .retune centerHz => some { armed with centerHz := centerHz }
  | .capture => some { armed with requested := armed.requested ++ [armed.centerHz] }
  | .begin =>
      match armed.requested with
      | [] => none
      | centerHz :: requested =>
          { armed with requested := requested }.machineStep config (.begin centerHz)
  | .push samples centerHz => armed.machineStep config (.push samples centerHz)
  | .offer => armed.machineStep config .offer
  | .look => armed.machineStep config .look
  | .drain wrap => armed.machineStep config (.drain wrap)
  | .close => armed.machineStep config .close

def run (config : Config ℤ) (silence : α) (events : List (ArmedEvent α)) : Option (Armed α) :=
  events.foldlM (step config) (start config silence)

/-- The writer that the keeper is about to begin was created on the centre of the oldest sample held. -/
def Agrees (armed : Armed α) : Prop :=
  ∀ centerHz ∈ armed.requested.head?, centerHz =
    armed.machine.keeper.marks.centerAt armed.machine.keeper.history.first

end Armed

/-- The frequency of the segment that sample `i` lies in. -/
def frequencyAt {C : Type} (captures : List (ℕ × C)) (i : ℕ) : Option C :=
  (captures.reverse.find? (·.1 ≤ i)).map (·.2)

/-- Every sample of every capture lies in a segment with the centre it was pushed with. -/
def State.RightlyLabelled {α : Type} (s : State α ℤ) (capacity : ℕ) : Prop :=
  ∀ taking stop, (taking, stop) ∈ s.captures → ∀ i < taking.capture.writer.data.length,
    ∃ sample centerHz, s.accepted[taking.from₀ capacity + i]? = some (sample, centerHz) ∧
      taking.capture.writer.data[i]? = some sample ∧
      frequencyAt taking.capture.writer.captures i = some centerHz

/-! ## A segment in front of the first one

The books of a recording say nothing of its first segment.  They are kept here of a recording with one
segment more in front, of which the first segment is the second. -/

variable {α C : Type}

def Capture.prefixed (label : C) (capture : Capture α C) : Capture α C :=
  { capture with writer := { capture.writer with
      captures := (0, label) :: capture.writer.captures } }

/-- The first segment starts with the first sample. -/
def Capture.Starts (capture : Capture α C) : Prop :=
  ∃ centerHz rest, capture.writer.captures = (0, centerHz) :: rest

def Taking.prefixed (label : C) (taking : Taking α C) : Taking α C :=
  { taking with capture := taking.capture.prefixed label }

namespace Keeper

def prefixed (label : C) (k : Keeper α C) : Keeper α C :=
  { k with
    capture := k.capture.map (Taking.prefixed label)
    closed := k.closed.map fun done ↦ (done.1.prefixed label, done.2) }

def Starts (k : Keeper α C) : Prop :=
  (∀ taking, k.capture = some taking → taking.capture.Starts) ∧
    ∀ done ∈ k.closed, done.1.capture.Starts

end Keeper

def State.prefixed (label : C) (s : State α C) : State α C :=
  { s with keeper := s.keeper.prefixed label }

variable {capture : Capture α C} {k : Keeper α C} (label : C)

theorem addCapture_starts (hstarts : capture.Starts) (centerHz : C) :
    ∃ first rest, (capture.writer.addCapture centerHz).captures = (0, first) :: rest := by
  obtain ⟨first, rest, hcaptures⟩ := hstarts
  rw [SigmfWriter.addCapture, hcaptures]
  cases rest with
  | nil =>
    simp only [List.getLast?_singleton]
    split_ifs
    · exact ⟨centerHz, [], rfl⟩
    · exact ⟨first, _, rfl⟩
  | cons second rest =>
    rw [List.getLast?_cons_cons]
    split
    · split_ifs
      · exact ⟨first, _, rfl⟩
      · exact ⟨first, _, rfl⟩
    · exact ⟨first, _, rfl⟩

theorem addCapture_prefixed (hstarts : capture.Starts) (centerHz : C) :
    (capture.prefixed label).writer.addCapture centerHz =
      { capture.writer.addCapture centerHz with
        captures := (0, label) :: (capture.writer.addCapture centerHz).captures } := by
  obtain ⟨first, rest, hcaptures⟩ := hstarts
  unfold SigmfWriter.addCapture SigmfWriter.samplesWritten
  simp only [Capture.prefixed, hcaptures, List.getLast?_cons_cons, List.dropLast_cons_cons]
  split
  · rename_i start _ _
    by_cases hempty : start = capture.writer.data.length
    · rw [if_pos hempty, if_pos hempty, List.cons_append]
    · rw [if_neg hempty, if_neg hempty, List.cons_append]
  · rfl

variable [BEq C]

theorem emitRun_prefixed (hstarts : capture.Starts) (marks : Marks C) (position : ℕ)
    (samples : List α) :
    emitRun marks (capture.prefixed label) position samples =
        ((emitRun marks capture position samples).1.prefixed label,
          (emitRun marks capture position samples).2) ∧
      (emitRun marks capture position samples).1.Starts := by
  have hcenter : (capture.prefixed label).centerHz = capture.centerHz := rfl
  simp only [emitRun, hcenter]
  split_ifs with hretune
  · rw [addCapture_prefixed label hstarts]
    exact ⟨rfl, addCapture_starts hstarts _⟩
  · exact ⟨rfl, hstarts⟩

theorem emitLoop_prefixed (fuel : ℕ) (hstarts : capture.Starts) (marks : Marks C) (position : ℕ)
    (samples : List α) :
    emitLoop marks fuel (capture.prefixed label) position samples =
        (emitLoop marks fuel capture position samples).prefixed label ∧
      (emitLoop marks fuel capture position samples).Starts := by
  induction fuel generalizing capture position samples with
  | zero => exact ⟨rfl, hstarts⟩
  | succ fuel ih =>
    rw [emitLoop, emitLoop]
    split_ifs with hempty
    · exact ⟨rfl, hstarts⟩
    · obtain ⟨hrun, hnext⟩ := emitRun_prefixed label hstarts marks position samples
      rw [hrun]
      exact ih hnext _ _

theorem emit_prefixed (hstarts : capture.Starts) (marks : Marks C) (position : ℕ)
    (samples : List α) :
    emit marks (capture.prefixed label) position samples =
        (emit marks capture position samples).prefixed label ∧
      (emit marks capture position samples).Starts :=
  emitLoop_prefixed label samples.length hstarts marks position samples

/-! ## The keeper -/

omit [BEq C] in
theorem close_prefixed (k : Keeper α C) : (k.prefixed label).close = k.close.prefixed label := by
  unfold Keeper.close
  cases hcapture : k.capture with
  | none => simp only [Keeper.prefixed, hcapture, Option.map_none]
  | some taking =>
    simp only [Keeper.prefixed, hcapture, Option.map_some, List.map_append, List.map_singleton,
      Option.map_none]

omit [BEq C] in
theorem close_starts (hstarts : k.Starts) : k.close.Starts := by
  unfold Keeper.close
  cases hcapture : k.capture with
  | none => exact hstarts
  | some taking =>
    constructor
    · exact fun _ htaking ↦ by cases htaking
    · intro done hdone
      rcases List.mem_append.mp hdone with hdone | hdone
      · exact hstarts.2 done hdone
      · rw [List.mem_singleton.mp hdone]
        exact hstarts.1 taking hcapture

theorem drainSlice_prefixed (hstarts : k.Starts) (slice : List α) :
    (k.prefixed label).drainSlice slice = (k.drainSlice slice).prefixed label ∧
      (k.drainSlice slice).Starts := by
  unfold Keeper.drainSlice
  split_ifs
  · exact ⟨rfl, hstarts⟩
  · cases hcapture : k.capture with
    | none =>
      constructor
      · simp only [Keeper.prefixed, hcapture, Option.map_none]
      · exact ⟨fun _ htaking ↦ (by cases htaking), hstarts.2⟩
    | some taking =>
      obtain ⟨hemit, hnext⟩ :=
        emit_prefixed label (hstarts.1 taking hcapture) k.marks k.history.next slice
      constructor
      · simp only [Keeper.prefixed, hcapture, Option.map_some, Taking.prefixed, hemit]
      · refine ⟨?_, hstarts.2⟩
        intro other hother
        rw [← Option.some.inj hother]
        exact hnext

theorem drain_prefixed {s : State α C} (hstarts : s.keeper.Starts) (count wrap : ℕ) :
    drain (s.prefixed label) count wrap = (drain s count wrap).prefixed label ∧
      (drain s count wrap).keeper.Starts := by
  obtain ⟨hfirst, hmiddle⟩ := drainSlice_prefixed label
    (show Keeper.Starts { s.keeper with
      marks := s.marks.foldl Marks.push s.keeper.marks, reading := none } from hstarts)
    ((s.samples.take count).take wrap)
  obtain ⟨hsecond, hlast⟩ := drainSlice_prefixed label hmiddle ((s.samples.take count).drop wrap)
  constructor
  · simp only [drain, State.prefixed]
    rw [← hsecond, ← hfirst]
    rfl
  · exact hlast

/-- A recording of what the ring holds. -/
def Keeper.beginEmpty (k : Keeper α C) (empty : Capture α C) : Keeper α C :=
  { k with
    capture := some ⟨emit k.marks (emit k.marks empty k.history.first k.history.window.1)
      (k.history.first + k.history.window.1.length) k.history.window.2, k.history.next⟩ }

theorem begin_prefixed (hstarts : k.Starts) (centerHz : C) :
    (k.begin centerHz).prefixed label = (k.prefixed label).close.beginEmpty
        (Capture.prefixed label ⟨.create centerHz, k.marks.centerAt k.history.first⟩) ∧
      (k.begin centerHz).Starts := by
  obtain ⟨hhistory, hmarks, -⟩ := close_history k
  have hempty : Capture.Starts
      (⟨.create centerHz, k.marks.centerAt k.history.first⟩ : Capture α C) := ⟨centerHz, [], rfl⟩
  obtain ⟨hhead, hmiddle⟩ :=
    emit_prefixed label hempty k.marks k.history.first k.history.window.1
  obtain ⟨htail, hlast⟩ := emit_prefixed label hmiddle k.marks
    (k.history.first + k.history.window.1.length) k.history.window.2
  constructor
  · rw [close_prefixed, Keeper.beginEmpty]
    simp only [Keeper.begin, Keeper.prefixed, Option.map_some, Taking.prefixed, hhistory, hmarks,
      hhead, htail]
  · constructor
    · intro taking htaking
      simp only [Keeper.begin, hhistory, hmarks] at htaking
      rw [← Option.some.inj htaking]
      exact hlast
    · exact (close_starts hstarts).2

/-! ## Runs -/

/-- The books hold with the segment in front, and every recording starts with its first segment. -/
structure Exact (config : Config C) (label : C) (s : State α C) : Prop where
  books : Invariant config (s.prefixed label)
  starts : s.keeper.Starts

variable [PartialEquivBEq C] {config : Config C} {s t : State α C} {label}

omit [PartialEquivBEq C] in
theorem push_prefixed (config : Config C) (label : C) (s : State α C) (samples : List α)
    (centerHz : C) :
    push config (s.prefixed label) samples centerHz =
        (push config s samples centerHz).prefixed label ∧
      (push config s samples centerHz).keeper = s.keeper := by
  unfold push State.prefixed
  dsimp only
  split_ifs
  all_goals exact ⟨rfl, rfl⟩

omit [BEq C] [PartialEquivBEq C] in
theorem offer_prefixed (config : Config C) (label : C) (s : State α C) :
    offer config (s.prefixed label) = (offer config s).prefixed label ∧
      (offer config s).keeper = s.keeper := by
  unfold offer State.prefixed
  dsimp only
  split
  · exact ⟨rfl, rfl⟩
  · split_ifs
    all_goals exact ⟨rfl, rfl⟩

omit [PartialEquivBEq C] in
/-- A step that begins no capture does the same with the segment in front. -/
theorem step_prefixed {event : Event α C} (hbegin : ∀ centerHz, event ≠ .begin centerHz)
    (hstarts : s.keeper.Starts) (hstep : step config s event = some t) :
    step config (s.prefixed label) event = some (t.prefixed label) ∧ t.keeper.Starts := by
  cases event with
  | push samples centerHz =>
    simp only [step] at hstep ⊢
    split_ifs at hstep with hoffering
    obtain rfl := Option.some.inj hstep
    obtain ⟨hpush, hkeeper⟩ := push_prefixed config label s samples centerHz
    exact ⟨(if_neg hoffering).trans (congrArg some hpush), hkeeper ▸ hstarts⟩
  | offer =>
    obtain rfl := Option.some.inj hstep
    obtain ⟨hoffer, hkeeper⟩ := offer_prefixed config label s
    exact ⟨congrArg some hoffer, hkeeper ▸ hstarts⟩
  | look =>
    simp only [step] at hstep ⊢
    split_ifs at hstep with hreading hempty
    · obtain rfl := Option.some.inj hstep
      exact ⟨(if_neg hreading).trans (if_pos hempty), hstarts⟩
    · obtain rfl := Option.some.inj hstep
      exact ⟨(if_neg hreading).trans (if_neg hempty), hstarts⟩
  | drain wrap =>
    obtain ⟨count, hcount, rfl⟩ := Option.map_eq_some_iff.mp hstep
    obtain ⟨hdrain, hafter⟩ := drain_prefixed label hstarts count wrap
    exact ⟨Option.map_eq_some_iff.mpr ⟨count, hcount, hdrain⟩, hafter⟩
  | begin centerHz => exact absurd rfl (hbegin centerHz)
  | close =>
    simp only [step] at hstep ⊢
    split_ifs at hstep with hreading
    obtain rfl := Option.some.inj hstep
    refine ⟨(if_neg hreading).trans ?_, close_starts hstarts⟩
    simp only [State.prefixed, close_prefixed]

theorem Exact.step (hexact : Exact config label s) {event : Event α C}
    (hbegin : ∀ centerHz, event ≠ .begin centerHz)
    (hstep : TimeMachine.step config s event = some t) : Exact config label t := by
  obtain ⟨hcommutes, hstarts⟩ := step_prefixed hbegin hexact.starts hstep
  exact ⟨hexact.books.step event hcommutes, hstarts⟩

/-- A capture begins on the centre of the oldest sample held. -/
theorem Exact.begin (hexact : Exact config label s) :
    Exact config label { s with
      keeper := s.keeper.begin (s.keeper.marks.centerAt s.keeper.history.first) } := by
  obtain ⟨hbegin, hstarts⟩ := begin_prefixed label hexact.starts
    (s.keeper.marks.centerAt s.keeper.history.first)
  obtain ⟨hhistory, hmarks, hread⟩ := close_history (s.prefixed label).keeper
  refine ⟨?_, hstarts⟩
  have hempty : ∀ off, Recorded (Labelled s.accepted) off (Capture.prefixed label
      (⟨.create (s.keeper.marks.centerAt s.keeper.history.first),
        s.keeper.marks.centerAt s.keeper.history.first⟩ : Capture α C)) := by
    intro off
    constructor
    · exact List.cons_ne_nil _ _
    · intro segment hsegment
      simp only [Capture.prefixed, SigmfWriter.create, List.mem_cons, List.not_mem_nil, or_false]
        at hsegment
      rcases hsegment with rfl | rfl
      · exact le_rfl
      · exact le_rfl
    · exact fun _ ↦ ⟨0, rfl⟩
    · exact fun i hi ↦ absurd hi (Nat.not_lt_zero i)
  change Invariant config { s.prefixed label with keeper :=
    (s.keeper.begin (s.keeper.marks.centerAt s.keeper.history.first)).prefixed label }
  rw [hbegin]
  refine hexact.books.keep hhistory hmarks ?_ ?_
  · intro count hcount
    change (s.prefixed label).keeper.close.reading = some count at hcount
    rw [hread] at hcount
    exact hexact.books.reading count hcount
  · exact hexact.books.keeper.close.begin_empty hempty rfl

omit [PartialEquivBEq C] in
theorem Exact.start (config : Config C) (hcapacity : 0 < config.capacity) (label : C) (silence : α) :
    Exact config label (start config silence) := by
  refine ⟨Invariant.start config hcapacity silence, ?_, ?_⟩
  · exact fun _ htaking ↦ by cases htaking
  · exact fun _ hdone ↦ absurd hdone List.not_mem_nil

/-- The books of a recording with a segment in front cover every segment of the recording. -/
theorem Exact.rightlyLabelled {config : Config ℤ} {label : ℤ} {s : State α ℤ}
    (hexact : Exact config label s) : s.RightlyLabelled config.capacity := by
  intro taking stop hmem i hi
  have hcontent : Content s.accepted config.capacity (taking.prefixed label) stop ∧
      taking.capture.Starts := by
    rcases List.mem_append.mp hmem with hclosed | hopen
    · exact ⟨hexact.books.keeper.closed (taking.prefixed label, stop)
        (List.mem_map_of_mem hclosed), hexact.starts.2 _ hclosed⟩
    · obtain ⟨other, hother, heq⟩ := Option.map_eq_some_iff.mp (Option.mem_toList.mp hopen)
      obtain ⟨rfl, rfl⟩ := Prod.mk.inj heq
      exact ⟨hexact.books.keeper.capture _ (by rw [State.prefixed, Keeper.prefixed, hother]; rfl),
        hexact.starts.1 _ hother⟩
  obtain ⟨⟨-, hstop, hdata, hrecorded⟩, first, rest, hcaptures⟩ := hcontent
  have hsome : (taking.capture.writer.captures.reverse.find? (·.1 ≤ i)).isSome := by
    rw [List.find?_isSome]
    exact ⟨(0, first), by rw [hcaptures]; simp, decide_eq_true (Nat.zero_le i)⟩
  obtain ⟨segment, hsegment⟩ := Option.isSome_iff_exists.mp hsome
  obtain ⟨x, hx, hsame⟩ := hrecorded.labels i hi segment hsegment
  change s.accepted[taking.from₀ config.capacity + i]? = some x at hx
  refine ⟨x.1, x.2, hx, ?_, ?_⟩
  · change taking.capture.writer.data = _ at hdata
    have hlong : taking.from₀ config.capacity + i < stop := by
      rw [hdata, List.length_drop, List.length_take, List.length_map] at hi
      change i < min stop s.accepted.length - taking.from₀ config.capacity at hi
      omega
    rw [hdata, List.getElem?_drop]
    change ((s.accepted.map Prod.fst).take stop)[taking.from₀ config.capacity + i]? = _
    rw [List.getElem?_take_of_lt hlong, List.getElem?_map, hx]
    rfl
  · rw [frequencyAt, hsegment, Option.map_some]
    rcases hsame with heq | heq
    · rw [heq]
    · rw [eq_of_beq heq]

namespace Armed

theorem exact_step {config : Config ℤ} {armed next : Armed α} {label : ℤ}
    (hexact : Exact config label armed.machine) {event : ArmedEvent α}
    (hagrees : event = .begin → armed.Agrees) (hstep : armed.step config event = some next) :
    Exact config label next.machine := by
  have hmachine : ∀ own : Event α ℤ, (∀ centerHz, own ≠ .begin centerHz) →
      armed.machineStep config own = some next → Exact config label next.machine := by
    intro own hown hnext
    obtain ⟨machine, htaken, rfl⟩ := Option.map_eq_some_iff.mp hnext
    exact hexact.step hown htaken
  cases event with
  | retune centerHz =>
    obtain rfl := Option.some.inj hstep
    exact hexact
  | capture =>
    obtain rfl := Option.some.inj hstep
    exact hexact
  | begin =>
    simp only [step] at hstep
    split at hstep
    · cases hstep
    · rename_i centerHz requested hrequested
      obtain ⟨machine, hbegin, rfl⟩ := Option.map_eq_some_iff.mp hstep
      have hcenter := hagrees rfl centerHz (by rw [hrequested]; rfl)
      simp only [TimeMachine.step] at hbegin
      split_ifs at hbegin
      obtain rfl := Option.some.inj hbegin
      rw [hcenter]
      exact hexact.begin
  | push samples centerHz => exact hmachine _ (fun _ h ↦ by cases h) hstep
  | offer => exact hmachine _ (fun _ h ↦ by cases h) hstep
  | look => exact hmachine _ (fun _ h ↦ by cases h) hstep
  | drain wrap => exact hmachine _ (fun _ h ↦ by cases h) hstep
  | close => exact hmachine _ (fun _ h ↦ by cases h) hstep

theorem exact_run {config : Config ℤ} (hcapacity : 0 < config.capacity) {silence : α} (label : ℤ)
    (events : List (ArmedEvent α)) {armed : Armed α}
    (hrun : run config silence events = some armed)
    (hagrees : ∀ before after, events = before ++ .begin :: after →
      ∀ then₀, run config silence before = some then₀ → then₀.Agrees) :
    Exact config label armed.machine := by
  induction events using List.reverseRecOn generalizing armed with
  | nil =>
    obtain rfl := Option.some.inj hrun
    exact Exact.start config hcapacity label silence
  | append_singleton events event ih =>
    rw [run, List.foldlM_append] at hrun
    obtain ⟨middle, hmiddle, hlast⟩ := Option.bind_eq_some_iff.mp hrun
    have hexact := ih hmiddle fun before after hevents then₀ hthen ↦
      hagrees before (after ++ [event]) (by rw [hevents, List.append_assoc]; rfl) then₀ hthen
    refine exact_step hexact ?_ (by simpa using hlast)
    rintro rfl
    exact hagrees events [] rfl middle hmiddle

end Armed

/-- In a run in which every capture begins on a writer with the centre of the oldest sample held, every
sample is labelled with the centre it was pushed with. -/
theorem rightlyLabelled_of_agrees (config : Config ℤ) (hcapacity : 1 ≤ config.capacity) (silence : α)
    (events : List (ArmedEvent α)) (armed : Armed α)
    (hrun : Armed.run config silence events = some armed)
    (hagrees : ∀ before after, events = before ++ .begin :: after →
      ∀ then₀, Armed.run config silence before = some then₀ → then₀.Agrees) :
    armed.machine.RightlyLabelled config.capacity :=
  (Armed.exact_run hcapacity 0 events hrun hagrees).rightlyLabelled

/-- A sample, and a capture of it on the centre the radio was armed on. -/
theorem rightlyLabelled_unmoved : ∃ armed : Armed ℕ,
    Armed.run ⟨2, 4, 4, 100⟩ 0 [.push [1] 100, .offer, .look, .drain 1, .capture, .begin] =
      some armed ∧ armed.machine.captures.length = 1 ∧ armed.machine.RightlyLabelled 2 := by
  refine ⟨_, rfl, rfl, rightlyLabelled_of_agrees ⟨2, 4, 4, 100⟩ (by decide) 0
    [.push [1] 100, .offer, .look, .drain 1, .capture, .begin] _ rfl ?_⟩
  intro before after hevents then₀ hthen
  rcases List.eq_nil_or_concat after with rfl | ⟨init, last, rfl⟩
  · have hbefore : [.push [1] 100, .offer, .look, .drain 1, .capture] = before :=
      (List.append_left_inj [ArmedEvent.begin]).mp hevents
    subst hbefore
    obtain rfl := Option.some.inj hthen
    intro centerHz hcenter
    cases hcenter
    rfl
  · have hbefore := congrArg List.dropLast hevents
    rw [List.concat_eq_append, ← List.cons_append, ← List.append_assoc, List.dropLast_concat] at hbefore
    have hmem : (.begin : ArmedEvent ℕ) ∈ before ++ .begin :: init := by simp
    rw [← hbefore] at hmem
    simp at hmem

/-- The radio is retuned while it holds a sample of before, and a capture is asked for. -/
theorem retuned_first_segment : ∃ armed : Armed ℕ,
    Armed.run ⟨2, 4, 4, 100⟩ 0
        [.push [1] 100, .offer, .look, .drain 1, .retune 200, .capture, .begin] = some armed ∧
      ¬armed.machine.RightlyLabelled 2 := by
  refine ⟨_, rfl, ?_⟩
  intro hlabelled
  obtain ⟨sample, centerHz, haccepted, -, hfrequency⟩ :=
    hlabelled _ 1 (List.mem_singleton.mpr rfl) 0 (by decide)
  cases haccepted
  cases hfrequency

end Sdrmm.TimeMachine
