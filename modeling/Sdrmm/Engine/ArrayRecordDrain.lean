import Sdrmm.Engine.ArrayRecordAligned

/-!
# The writer of an array recording

The steps of `drain` keep a recording as it should be, and with those of the tap every run does.
-/

namespace Sdrmm.ArrayRecord

variable {α : Type}

section Notes

variable {first stop : ℕ} {applied notes noted rest : List RecordNote} {position : Option ℕ}
  {writer writer' : CollectionWriter α} {accepted : List ℕ} {note : RecordNote}

/-- A note that is not a gap is read. -/
theorem Unread.pop (hunread : Unread first stop applied (note :: rest) noted position writer accepted)
    (hgap : note.gap? = none) (hsamples : writer'.samples = writer.samples)
    (hmissing : writer'.missing = writer.missing) :
    Unread first stop (applied ++ [note]) rest noted (some (writer'.edge first)) writer' accepted := by
  have hedge : writer'.edge first = writer.edge first := by
    rw [CollectionWriter.edge, CollectionWriter.edge, hsamples, hmissing]
  have hgaps : (note :: rest).filterMap RecordNote.gap? = rest.filterMap RecordNote.gap? :=
    List.filterMap_cons_none hgap
  have hwithin := hunread.within
  have hpositive := hunread.positive
  have hrest := hunread.rest
  rw [hgaps] at hwithin hpositive hrest
  refine ⟨?_, hunread.head, hunread.single, hunread.timely, ?_, ?_, hedge ▸ hwithin, hpositive,
    hunread.ordered.of_cons, ?_⟩
  · rw [hunread.parts, List.append_assoc]
    rfl
  · rw [if_neg (by simp)]
  · simp
  · rw [hsamples, hedge]
    exact hrest

theorem edge_gap (missing : ℕ) : (writer.gap missing).edge first = writer.edge first + missing := by
  rw [CollectionWriter.gap]
  split_ifs with hzero
  · rw [hzero, add_zero]
  · simp only [CollectionWriter.edge, CollectionWriter.mark]
    omega

theorem samples_gap (missing : ℕ) : (writer.gap missing).samples = writer.samples := by
  rw [CollectionWriter.gap]
  split_ifs <;> rfl

theorem noise_gap (missing : ℕ) : (writer.gap missing).noise = writer.noise := by
  rw [CollectionWriter.gap]
  split_ifs <;> rfl

/-- A gap is read. -/
theorem Unread.pop_gap {missing : ℕ} (hunread : Unread first stop applied
      (.gap (writer.edge first) missing :: rest) noted position writer accepted) :
    Unread first stop (applied ++ [.gap (writer.edge first) missing]) rest noted
      (some (writer.edge first + missing)) (writer.gap missing) accepted := by
  refine ⟨?_, hunread.head, hunread.single, hunread.timely, ?_, ?_, ?_, ?_, hunread.ordered.of_cons,
    ?_⟩
  · rw [hunread.parts, List.append_assoc]
    rfl
  · rw [if_neg (by simp), edge_gap]
  · simp
  · rw [edge_gap]
    exact hunread.within.2
  · exact fun gap hgap ↦ hunread.positive gap (List.mem_cons_of_mem _ hgap)
  · rw [samples_gap, edge_gap, hunread.rest]
    exact stretch_skip missing

/-- A note after the first has a place to be applied at. -/
theorem Unread.position_of_not_start
    (hunread : Unread first stop applied (note :: rest) noted position writer accepted)
    (hstart : note.isStart = false) : applied ≠ [] ∧ position = some (writer.edge first) := by
  have happlied : applied ≠ [] := by
    rintro rfl
    have hhead := hunread.head
    rw [hunread.parts] at hhead
    obtain rfl := Option.some.inj hhead
    cases hstart
  exact ⟨happlied, hunread.reached.trans (if_neg happlied)⟩

/-- The note to start with is the first of all. -/
theorem Unread.start_first
    (hunread : Unread first stop applied (note :: rest) noted position writer accepted)
    (hstart : note.isStart = true) : note = .start first ∧ applied = [] := by
  have happlied : applied = [] := by
    by_contra hne
    have hmem : note ∈ noted.tail := by
      rw [hunread.parts, List.tail_append_of_ne_nil hne]
      exact List.mem_append_right _ (List.mem_cons_self ..)
    rw [hunread.single note hmem] at hstart
    cases hstart
  subst happlied
  have hhead := hunread.head
  rw [hunread.parts] at hhead
  exact ⟨Option.some.inj hhead, rfl⟩

end Notes

section Steps

variable {lanes capacity first stop : ℕ} {signal : ℕ → ℕ → α} {applied rest : List RecordNote}
  {s : State α} {note : RecordNote}

/-- A step of the writer that goes on to the next operation and changes nothing else. -/
theorem Recording.withDrain (hrec : Recording lanes capacity signal first stop applied s)
    {drain : Drain α} (hpopped : ∀ lane, ({ s with drain := drain } : State α).popped lane =
      s.popped lane)
    (hdrain : DrainOk lanes signal first { s with drain := drain }) :
    Recording lanes capacity signal first stop applied { s with drain := drain } where
  files := hrec.files
  noise := hrec.noise
  unread := hrec.unread
  queued := by
    intro lane hlane
    rw [hpopped lane]
    exact hrec.queued lane hlane
  tap := hrec.tap
  drain := hdrain

/-- A note was read. -/
theorem Recording.afterNote (hrec : Recording lanes capacity signal first stop applied s)
    (hnotes : s.notes = note :: rest) (hdrain : s.drain = .applying note)
    {writer : CollectionWriter α} {noiseFrom position : Option ℕ}
    (hsamples : writer.samples = s.writer.samples)
    (hfiles : Files lanes signal first (applied ++ [note]) writer s.accepted)
    (hnoise : Noise (applied ++ [note]) s.accepted (writer.edge first) writer.noise noiseFrom)
    (hunread : Unread first stop (applied ++ [note]) rest s.noted position writer s.accepted) :
    Recording lanes capacity signal first stop (applied ++ [note])
      { s with notes := rest, writer := writer, noiseFrom := noiseFrom, position := position,
               drain := .scanning } where
  files := hfiles
  noise := hnoise
  unread := hunread
  queued := by
    intro lane hlane
    have hqueued := hrec.queued lane hlane
    simp only [State.popped, hdrain, ← hsamples] at hqueued
    exact hqueued
  tap := by
    refine hrec.tap.mono rfl rfl rfl ?_ fun _ ↦ le_rfl
    intro other hother
    rw [hnotes]
    exact List.mem_cons_of_mem _ hother
  drain := trivial

/-- Where a noise note is in the file. -/
theorem Recording.writtenAt (hrec : Recording lanes capacity signal first stop applied s)
    (hnotes : s.notes = note :: rest) (hnoise : note.isNoise = true)
    (hposition : s.position = some (s.writer.edge first))
    (hindex : note.index ≤ s.writer.edge first) :
    s.writtenAt note.index = fileIndex s.accepted note.index := by
  rw [State.writtenAt, hposition]
  apply hrec.files.fileIndex_eq hindex
  · intro x hx
    rw [hrec.unread.rest] at hx
    exact le_of_mem_stretch hrec.unread.within x hx
  · apply hrec.unread.timely applied note rest _ hnoise
    rw [hrec.unread.parts, hnotes]

theorem due_index (hposition : s.position = some (s.writer.edge first)) (hdue : s.due note = true)
    (hstart : note.isStart = false) : note.index ≤ s.writer.edge first := by
  simp only [State.due, hposition] at hdue
  cases note with
  | start index => cases hstart
  | _ => exact of_decide_eq_true hdue

/-- A note that is not a gap and was read at the edge of the file. -/
theorem Recording.pop_unread (hrec : Recording lanes capacity signal first stop applied s)
    (hnotes : s.notes = note :: rest) (hposition : s.position = some (s.writer.edge first))
    (hgap : note.gap? = none) {writer : CollectionWriter α}
    (hsamples : writer.samples = s.writer.samples) (hmissing : writer.missing = s.writer.missing) :
    Unread first stop (applied ++ [note]) rest s.noted s.position writer s.accepted := by
  have hunread := hrec.unread
  rw [hnotes] at hunread
  have hpop := hunread.pop hgap hsamples hmissing
  have hedge : writer.edge first = s.writer.edge first := by
    rw [CollectionWriter.edge, CollectionWriter.edge, hsamples, hmissing]
  rw [hposition, ← hedge]
  exact hpop

theorem remark_eq (writer : CollectionWriter α) :
    writer.remark.samples = writer.samples ∧ writer.remark.missing = writer.missing ∧
      writer.remark.noise = writer.noise := by
  rw [CollectionWriter.remark]
  split_ifs <;> exact ⟨rfl, rfl, rfl⟩

/-- A note that starts a capture. -/
theorem Recording.afterRemark (hrec : Recording lanes capacity signal first stop applied s)
    (hnotes : s.notes = note :: rest) (hdrain : s.drain = .applying note)
    (hposition : s.position = some (s.writer.edge first)) (hgap : note.gap? = none) :
    Recording lanes capacity signal first stop (applied ++ [note])
      { s with notes := rest, writer := s.writer.remark, drain := .scanning } := by
  obtain ⟨hsamples, hmissing, hnoise⟩ := remark_eq s.writer
  apply hrec.afterNote hnotes hdrain hsamples (hrec.files.remark.concat hgap) ?_
    (hrec.pop_unread hnotes hposition hgap hsamples hmissing)
  rw [hnoise, CollectionWriter.edge, hsamples, hmissing]
  exact hrec.noise.mono _ le_rfl

/-- The writer applies a note. -/
theorem Recording.stepDrain_applying (hrec : Recording lanes capacity signal first stop applied s)
    (hdrain : s.drain = .applying note) :
    Recording lanes capacity signal first stop (applied ++ [note]) (s.stepDrain lanes) := by
  have hok := hrec.drain
  simp only [DrainOk, hdrain] at hok
  obtain ⟨hhead, hdue⟩ := hok
  obtain ⟨rest, hnotes⟩ := List.head?_eq_some_iff.mp hhead
  have hunread := hrec.unread
  rw [hnotes] at hunread
  simp only [State.stepDrain, hdrain, hnotes, List.tail_cons]
  cases note with
  | start index =>
    obtain ⟨hfirst, happlied⟩ := hunread.start_first rfl
    obtain rfl := RecordNote.start.inj hfirst
    have hposition : s.position = none := hunread.reached.trans (if_pos happlied)
    have hedge : s.writer.edge index = index := by
      rw [CollectionWriter.edge, (hunread.unstarted happlied).1, (hunread.unstarted happlied).2]
      rfl
    have hpop : Unread index stop (applied ++ [.start index]) rest s.noted
        (some (s.writer.edge index)) s.writer s.accepted := hunread.pop rfl rfl rfl
    rw [hedge] at hpop
    simp only [State.apply, hposition]
    exact hrec.afterNote hnotes hdrain rfl (hrec.files.concat rfl) (hrec.noise.mono _ le_rfl) hpop
  | gap index missing =>
    obtain ⟨_, hposition⟩ := hunread.position_of_not_start rfl
    have hindex : index = s.writer.edge first :=
      le_antisymm (due_index hposition hdue rfl) hunread.within.1
    subst hindex
    simp only [State.apply]
    apply hrec.afterNote hnotes hdrain (samples_gap missing) (hrec.files.gap missing) ?_
      hunread.pop_gap
    rw [noise_gap, edge_gap]
    exact hrec.noise.mono _ (Nat.le_add_right _ _)
  | noiseOn index =>
    obtain ⟨_, hposition⟩ := hunread.position_of_not_start rfl
    have hindex := due_index hposition hdue rfl
    have hwritten := hrec.writtenAt hnotes rfl hposition hindex
    simp only [State.apply]
    apply hrec.afterNote hnotes hdrain rfl (hrec.files.concat rfl) ?_
      (hrec.pop_unread hnotes hposition rfl rfl rfl)
    refine ⟨(hrec.noise.mono _ le_rfl).spans, ?_⟩
    rintro place ⟨⟩
    exact ⟨index, List.mem_append_right _ (List.mem_singleton_self _), hindex, hwritten⟩
  | noiseOff index =>
    obtain ⟨_, hposition⟩ := hunread.position_of_not_start rfl
    have hindex := due_index hposition hdue rfl
    have hwritten := hrec.writtenAt hnotes rfl hposition hindex
    have hmono := hrec.noise.mono [.noiseOff index] le_rfl
    simp only [State.apply]
    cases hfrom : s.noiseFrom with
    | none =>
      rw [hfrom] at hmono
      exact hrec.afterNote hnotes hdrain rfl (hrec.files.concat rfl) hmono
        (hrec.pop_unread hnotes hposition rfl rfl rfl)
    | some start =>
      have hfiles : Files lanes signal first (applied ++ [.noiseOff index])
          (s.writer.addNoise start (s.writtenAt index - start)) s.accepted :=
        ⟨hrec.files.samples_le, hrec.files.data, hrec.files.places, hrec.files.captures,
          hrec.files.ahead, (hrec.files.concat rfl).lastRun⟩
      have hspans : Noise (applied ++ [.noiseOff index]) s.accepted (s.writer.edge first)
          (s.writer.noise ++ [(start, s.writtenAt index - start)]) none := by
        refine ⟨?_, by rintro _ ⟨⟩⟩
        intro span hspan
        rcases List.mem_append.mp hspan with hold | hnew
        · exact hmono.spans span hold
        · rw [List.mem_singleton.mp hnew]
          obtain ⟨on, hon⟩ := hmono.begun start hfrom
          exact ⟨s.writtenAt index, on, index, hon,
            ⟨List.mem_append_right _ (List.mem_singleton_self _), hindex, hwritten⟩, rfl⟩
      have hpop : Unread first stop (applied ++ [.noiseOff index]) rest s.noted s.position
          (s.writer.addNoise start (s.writtenAt index - start)) s.accepted :=
        hrec.pop_unread hnotes hposition rfl rfl rfl
      exact hrec.afterNote hnotes hdrain rfl hfiles hspans hpop
  | retuned index =>
    obtain ⟨_, hposition⟩ := hunread.position_of_not_start rfl
    exact hrec.afterRemark hnotes hdrain hposition rfl
  | offsets index =>
    obtain ⟨_, hposition⟩ := hunread.position_of_not_start rfl
    exact hrec.afterRemark hnotes hdrain hposition rfl

/-! ## Counting and taking samples -/

theorem popped_of_not_taking (hdrain : ∀ ready lane chunk, s.drain ≠ .taking ready lane chunk)
    (lane : ℕ) : s.popped lane = s.writer.samples := by
  rw [State.popped]
  cases hcase : s.drain with
  | taking ready lane chunk => exact absurd hcase (hdrain ready lane chunk)
  | _ => rfl

theorem Recording.position_eq (hrec : Recording lanes capacity signal first stop applied s)
    (hsome : s.position.isSome) : s.position = some (s.writer.edge first) ∧ applied ≠ [] := by
  have hreached := hrec.unread.reached
  split_ifs at hreached with happlied
  · rw [hreached] at hsome
    cases hsome
  · exact ⟨hreached, happlied⟩

theorem Contiguous.mono {count count' : ℕ} {writer : CollectionWriter α} {accepted : List ℕ}
    (hcontiguous : Contiguous first count writer accepted) (hle : count' ≤ count) :
    Contiguous first count' writer accepted := by
  refine ⟨hle.trans hcontiguous.le, ?_⟩
  calc (accepted.drop writer.samples).take count'
      = ((accepted.drop writer.samples).take count).take count' := by
        rw [List.take_take, min_eq_left hle]
    _ = (List.range' (writer.edge first) count).take count' := by rw [hcontiguous.take]
    _ = List.range' (writer.edge first) count' := by
        rw [← Nat.add_sub_cancel' hle, ← List.range'_append_1, List.take_left' (List.length_range' ..)]

/-- Samples that no gap comes before follow each other. -/
theorem Recording.contiguous (hrec : Recording lanes capacity signal first stop applied s) {count : ℕ}
    (hcount : count ≤ (s.accepted.drop s.writer.samples).length)
    (hgaps : ∀ gap ∈ s.notes.filterMap RecordNote.gap?, s.writer.edge first + count ≤ gap.1) :
    Contiguous first count s.writer s.accepted := by
  refine ⟨hcount, ?_⟩
  rw [hrec.unread.rest] at hcount ⊢
  exact take_stretch hrec.unread.within hcount hgaps

/-- No gap comes before the first note. -/
theorem Recording.le_gap_of_head (hrec : Recording lanes capacity signal first stop applied s)
    (hhead : s.notes.head? = some note) :
    ∀ gap ∈ s.notes.filterMap RecordNote.gap?,
      s.writer.edge first + (note.index - s.writer.edge first) ≤ gap.1 := by
  obtain ⟨rest, hnotes⟩ := List.head?_eq_some_iff.mp hhead
  intro gap hgap
  have hedge := hrec.unread.within.le_gap gap hgap
  have hindex : note.index ≤ gap.1 := by
    rw [hnotes] at hgap
    obtain ⟨later, hlater, hmissing⟩ := List.mem_filterMap.mp hgap
    rcases List.mem_cons.mp hlater with rfl | hrest
    · cases later with
      | gap index missing =>
        obtain rfl := Option.some.inj hmissing
        exact le_rfl
      | _ => cases hmissing
    · have hordered := hrec.unread.ordered
      rw [hnotes, List.pairwise_cons] at hordered
      exact hordered.1 later hrest gap hmissing
  omega

/-- The length of a queue that the writer has not popped from. -/
theorem Recording.length_le (hrec : Recording lanes capacity signal first stop applied s) {lane : ℕ}
    (hlane : lane < lanes) (hpopped : s.popped lane = s.writer.samples) :
    (s.lanes lane).length ≤ (s.accepted.drop s.writer.samples).length := by
  rw [(hrec.queued lane hlane).2, hpopped, List.length_map, List.drop_take, List.length_take]
  exact min_le_right _ _

theorem Recording.stepDrain_scanning (hrec : Recording lanes capacity signal first stop applied s)
    (hdrain : s.drain = .scanning) :
    Recording lanes capacity signal first stop applied (s.stepDrain lanes) := by
  have hwait : Recording lanes capacity signal first stop applied
      { s with drain := if s.position.isSome then .limiting else .scanning } := by
    split_ifs with hsome
    · apply hrec.withDrain (fun lane ↦ by simp only [State.popped, hdrain])
      exact hsome
    · exact hrec.withDrain (fun lane ↦ by simp only [State.popped, hdrain]) trivial
  simp only [State.stepDrain, hdrain]
  split
  · next note rest hnotes =>
    by_cases hdue : s.due note = true
    · rw [if_pos hdue]
      apply hrec.withDrain (fun lane ↦ by simp only [State.popped, hdrain])
      exact ⟨by simp only [hnotes, List.head?_cons], hdue⟩
    · rw [if_neg hdue]
      exact hwait
  · exact hwait

theorem Recording.stepDrain_limiting (hrec : Recording lanes capacity signal first stop applied s)
    (hdrain : s.drain = .limiting) :
    Recording lanes capacity signal first stop applied (s.stepDrain lanes) := by
  have hsome := hrec.drain
  simp only [DrainOk, hdrain] at hsome
  simp only [State.stepDrain, hdrain]
  apply hrec.withDrain (fun lane ↦ by simp only [State.popped, hdrain])
  refine ⟨hsome, ?_, by simp, by rintro _ ⟨⟩⟩
  intro count hcount
  obtain ⟨note, hhead, rfl⟩ := Option.map_eq_some_iff.mp hcount
  refine ⟨note, hhead, ?_⟩
  rw [(hrec.position_eq hsome).1]
  rfl

/-- The first lane that is counted holds nothing behind a gap. -/
theorem Recording.contiguous_first (hrec : Recording lanes capacity signal first stop applied s)
    {limit : Option ℕ} (hdrain : s.drain = .counting limit 0 none) (hmeets : Meets s .drain)
    (hlanes : 0 < lanes) :
    Contiguous first ((limit.map (min (s.lanes 0).length)).getD (s.lanes 0).length) s.writer
      s.accepted := by
  have hok := hrec.drain
  simp only [DrainOk, hdrain] at hok
  obtain ⟨hsome, hlimit, _⟩ := hok
  have hlength := hrec.length_le hlanes (popped_of_not_taking (by simp [hdrain]) 0)
  cases limit with
  | none =>
    simp only [Meets, hdrain, (hrec.position_eq hsome).1] at hmeets
    exact hrec.contiguous hlength hmeets
  | some count =>
    obtain ⟨note, hhead, rfl⟩ := hlimit count rfl
    apply hrec.contiguous ((min_le_left _ _).trans hlength)
    intro gap hgap
    have hle := hrec.le_gap_of_head hhead gap hgap
    have hmin : min (s.lanes 0).length (note.index - s.writer.edge first) ≤
        note.index - s.writer.edge first := min_le_right _ _
    exact (Nat.add_le_add_left hmin _).trans hle

theorem Recording.stepDrain_counting (hrec : Recording lanes capacity signal first stop applied s)
    {limit slots : Option ℕ} {lane : ℕ} (hdrain : s.drain = .counting limit lane slots)
    (hmeets : Meets s .drain) :
    Recording lanes capacity signal first stop applied (s.stepDrain lanes) := by
  have hok := hrec.drain
  simp only [DrainOk, hdrain] at hok
  obtain ⟨hsome, hlimit, hzero, hslots⟩ := hok
  simp only [State.stepDrain, hdrain]
  by_cases hlane : lane < lanes
  · rw [if_pos hlane]
    apply hrec.withDrain (fun other ↦ by simp only [State.popped, hdrain])
    refine ⟨hsome, hlimit, by simp, ?_⟩
    rintro count ⟨⟩
    cases slots with
    | none =>
      obtain rfl := hzero.mp rfl
      refine ⟨?_, hrec.contiguous_first hdrain hmeets hlane⟩
      intro other hother _
      obtain rfl : other = 0 := by omega
      exact le_rfl
    | some slots =>
      obtain ⟨hfound, hcontiguous⟩ := hslots slots rfl
      constructor
      · intro other hother hlt
        rcases Nat.lt_succ_iff_lt_or_eq.mp hother with hbefore | rfl
        · exact (min_le_right _ _).trans (hfound other hbefore hlt)
        · exact min_le_left _ _
      · apply hcontiguous.mono
        cases limit with
        | none => exact min_le_right _ _
        | some limit => exact min_le_min_right _ (min_le_right _ _)
  · rw [if_neg hlane]
    split_ifs with hready
    · exact hrec.withDrain (fun other ↦ by simp only [State.popped, hdrain]) trivial
    · cases slots with
      | none =>
        cases limit <;> simp at hready
      | some slots =>
        obtain ⟨hfound, hcontiguous⟩ := hslots slots rfl
        apply hrec.withDrain (fun other ↦ by simp only [State.popped, hdrain]; rfl)
        refine ⟨hsome, hcontiguous.mono (min_le_left _ _), ?_, fun other hother ↦ absurd hother (by simp)⟩
        intro other _ hlt
        have hle : (limit.map (min slots)).getD slots ≤ slots := by
          cases limit with
          | none => exact le_rfl
          | some limit => exact min_le_left _ _
        exact ((min_le_left _ _).trans hle).trans (hfound other (by omega) hlt)

/-- The samples of one lane are popped. -/
theorem Recording.popLane (hrec : Recording lanes capacity signal first stop applied s)
    {ready lane : ℕ} {chunk : ℕ → List α} (hdrain : s.drain = .taking ready lane chunk)
    (hlane : lane < lanes) :
    Recording lanes capacity signal first stop applied
      { s with
        lanes := Function.update s.lanes lane ((s.lanes lane).drop ready)
        drain := .taking ready (lane + 1)
          (Function.update chunk lane ((s.lanes lane).take ready)) } := by
  have hok := hrec.drain
  simp only [DrainOk, hdrain] at hok
  obtain ⟨hsome, hcontiguous, hready, hchunk⟩ := hok
  have hqueue := hrec.queued lane hlane
  simp only [State.popped, hdrain, if_neg (lt_irrefl lane)] at hqueue
  obtain ⟨hpushed, hqueue⟩ := hqueue
  have hlength := hready lane le_rfl hlane
  rw [hqueue, List.length_map, List.drop_take, List.length_take] at hlength
  have hpopped : ready ≤ s.pushed lane - s.writer.samples := hlength.trans (min_le_left _ _)
  refine ⟨hrec.files, hrec.noise, hrec.unread, ?_, ?_, ?_⟩
  · intro other hother
    have hothers := hrec.queued other hother
    simp only [State.popped, hdrain] at hothers ⊢
    by_cases hsame : other = lane
    · subst hsame
      rw [if_pos (Nat.lt_succ_self other), Function.update_self, hqueue]
      refine ⟨?_, ?_⟩
      · change s.writer.samples + ready ≤ s.pushed other
        omega
      · rw [← List.map_drop, List.drop_drop]
        rfl
    · rw [Function.update_of_ne hsame]
      by_cases hbefore : other < lane
      · rw [if_pos hbefore] at hothers
        rw [if_pos (Nat.lt_succ_of_lt hbefore)]
        exact hothers
      · rw [if_neg hbefore] at hothers
        rw [if_neg (by omega)]
        exact hothers
  · refine hrec.tap.mono rfl rfl rfl (fun _ hnote ↦ hnote) ?_
    intro other
    by_cases hsame : other = lane
    · subst hsame
      simp only [Function.update_self, List.length_drop]
      exact Nat.sub_le _ _
    · simp only [Function.update_of_ne hsame]
      exact le_rfl
  · refine ⟨hsome, hcontiguous, ?_, ?_⟩
    · intro other hother hlt
      have hne : other ≠ lane := by omega
      simp only [Function.update_of_ne hne]
      exact hready other (by omega) hlt
    · intro other hother
      by_cases hsame : other = lane
      · subst hsame
        simp only [Function.update_self]
        rw [hqueue, ← List.map_take, List.drop_take, List.take_take, min_eq_left hpopped]
      · simp only [Function.update_of_ne hsame]
        exact hchunk other (by omega)

/-- The edge of the file moves past samples that no gap comes before. -/
theorem Unread.write {notes noted : List RecordNote} {position : Option ℕ}
    {writer : CollectionWriter α} {accepted : List ℕ} {count : ℕ}
    (hunread : Unread first stop applied notes noted position writer accepted)
    (happlied : applied ≠ []) (hcontiguous : Contiguous first count writer accepted)
    (chunk : ℕ → List α) :
    Unread first stop applied notes noted (position.map (· + count)) (writer.write chunk count)
      accepted := by
  have hedge : (writer.write chunk count).edge first = writer.edge first + count := by
    simp only [CollectionWriter.edge, CollectionWriter.write]
    omega
  have hle := hcontiguous.le
  have htake := hcontiguous.take
  rw [hunread.rest] at hle htake
  have hgaps := le_gap_of_take hunread.within hunread.positive hle htake
  have hstop := hunread.within.add_le hle hgaps
  refine ⟨hunread.parts, hunread.head, hunread.single, hunread.timely, ?_, ?_, ?_, hunread.positive,
    hunread.ordered, ?_⟩
  · rw [hunread.reached, if_neg happlied, if_neg happlied, hedge]
    rfl
  · intro hnil
    exact absurd hnil happlied
  · rw [hedge]
    exact hunread.within.advance hgaps hstop
  · have hdrop : accepted.drop (writer.samples + count) =
        (accepted.drop writer.samples).drop count := by rw [List.drop_drop]
    change accepted.drop (writer.samples + count) = _
    rw [hdrop, hunread.rest, hedge, stretch_advance hunread.within hgaps hstop,
      List.drop_left' (List.length_range' ..)]

theorem Recording.stepDrain_taking (hrec : Recording lanes capacity signal first stop applied s)
    {ready lane : ℕ} {chunk : ℕ → List α} (hdrain : s.drain = .taking ready lane chunk) :
    Recording lanes capacity signal first stop applied (s.stepDrain lanes) := by
  have hok := hrec.drain
  simp only [DrainOk, hdrain] at hok
  obtain ⟨hsome, hcontiguous, hready, hchunk⟩ := hok
  simp only [State.stepDrain, hdrain]
  by_cases hlane : lane < lanes
  · rw [if_pos hlane]
    exact hrec.popLane hdrain hlane
  · rw [if_neg hlane]
    refine ⟨?_, ?_, ?_, ?_, ?_, trivial⟩
    · exact hrec.files.write hcontiguous fun other hother ↦ hchunk other (by omega)
    · have hedge : s.writer.edge first ≤ (s.writer.write chunk ready).edge first := by
        simp only [CollectionWriter.edge, CollectionWriter.write]
        omega
      have hmono := hrec.noise.mono [] hedge
      rw [List.append_nil] at hmono
      exact hmono
    · exact hrec.unread.write (hrec.position_eq hsome).2 hcontiguous chunk
    · intro other hother
      have hqueued := hrec.queued other hother
      simp only [State.popped, hdrain, if_pos (show other < lane by omega)] at hqueued
      exact hqueued
    · exact hrec.tap.mono rfl rfl rfl (fun _ hnote ↦ hnote) fun _ ↦ le_rfl

/-- A step of the writer keeps a recording as it should be. -/
theorem Recording.stepDrain (hrec : Recording lanes capacity signal first stop applied s)
    (hmeets : Meets s .drain) :
    ∃ applied', Recording lanes capacity signal first stop applied' (s.stepDrain lanes) := by
  cases hdrain : s.drain with
  | scanning => exact ⟨applied, hrec.stepDrain_scanning hdrain⟩
  | applying note => exact ⟨applied ++ [note], hrec.stepDrain_applying hdrain⟩
  | limiting => exact ⟨applied, hrec.stepDrain_limiting hdrain⟩
  | counting limit lane slots => exact ⟨applied, hrec.stepDrain_counting hdrain hmeets⟩
  | taking ready lane chunk => exact ⟨applied, hrec.stepDrain_taking hdrain⟩

end Steps

end Sdrmm.ArrayRecord
