import Sdrmm.Engine.Tap

/-!
# The numbers of the samples in a lane

The samples of a lane carry no numbers: the reader counts them from the position that it has come to and
leaves out what the gaps between them tell.  `Lane.Numbered` says that this gives every sample the number
that it was written with.  `Lane.Writes` and `Lane.Reads` are what the two sides of a lane may do to it; each
side keeps the numbers right for the other.
-/

namespace Sdrmm.Align

/-- An event as a cut between the samples. -/
def TapEvent.cut : TapEvent → ℕ × ℕ
  | .gap position missing => (position, missing)
  | event => (event.position, 0)

theorem TapEvent.cut_fst (event : TapEvent) : event.cut.1 = event.position := by
  cases event with
  | gap position missing => rfl
  | stamp position hostNs => rfl
  | lane event => rfl

namespace Lane

variable {S : Type} {lane before after : Lane S} {given : ℕ → Option S}

/-- The events that have not been applied. -/
def queue (lane : Lane S) : List TapEvent := lane.feed.next.toList ++ lane.events

def cuts (lane : Lane S) : List (ℕ × ℕ) := lane.queue.map TapEvent.cut

/-- The position of the reader, which begins at the first event. -/
def start? (lane : Lane S) : Option ℕ := lane.feed.readIndex.or (lane.events.head?.map TapEvent.position)

/-- The position behind everything that the reader can see. -/
def stop? (lane : Lane S) : Option ℕ :=
  lane.start?.map fun start ↦ Cuts.stop start lane.cuts lane.samples.length

structure Numbered (given : ℕ → Option S) (lane : Lane S) : Prop where
  next : lane.feed.readIndex = none → lane.feed.next = none
  empty : lane.start? = none → lane.samples = []
  fits : ∀ start ∈ lane.start?, Cuts.Fits start lane.cuts lane.samples.length
  samples : ∀ start ∈ lane.start?,
    lane.samples.map some = (Cuts.numbers start lane.cuts lane.samples.length).map given

/-- No event lies within the next `count` samples. -/
def Free (lane : Lane S) (count : ℕ) : Prop :=
  ∀ read ∈ lane.feed.readIndex, ∀ event ∈ lane.queue.head?, read + count ≤ event.position

/-- What the reader may do. -/
structure Reads (given : ℕ → Option S) (before after : Lane S) : Prop where
  ring : after.ring = before.ring
  capacity : after.capacity = before.capacity
  numbered : before.Numbered given → after.Numbered given
  stop : before.Numbered given → after.stop? = before.stop?
  samples : after.samples.length ≤ before.samples.length

/-- What the writer may do. -/
structure Writes (given : ℕ → Option S) (before after : Lane S) : Prop where
  feed : after.feed = before.feed
  raw : after.raw = before.raw
  numbered : before.Numbered given → after.Numbered given
  samples : before.samples.length ≤ after.samples.length
  free : before.Numbered given → ∀ count ≤ before.samples.length, before.Free count → after.Free count

theorem Reads.refl (given : ℕ → Option S) (lane : Lane S) : Reads given lane lane :=
  ⟨rfl, rfl, id, fun _ ↦ rfl, Nat.le_refl _⟩

theorem Writes.refl (given : ℕ → Option S) (lane : Lane S) : Writes given lane lane :=
  ⟨rfl, rfl, id, Nat.le_refl _, fun _ _ _ hfree ↦ hfree⟩

theorem Reads.trans {middle : Lane S} (hfirst : Reads given before middle)
    (hsecond : Reads given middle after) : Reads given before after where
  ring := hsecond.ring.trans hfirst.ring
  capacity := hsecond.capacity.trans hfirst.capacity
  numbered := hsecond.numbered ∘ hfirst.numbered
  stop := fun hnumbered ↦ (hsecond.stop (hfirst.numbered hnumbered)).trans (hfirst.stop hnumbered)
  samples := Nat.le_trans hsecond.samples hfirst.samples

theorem Writes.trans {middle : Lane S} (hfirst : Writes given before middle)
    (hsecond : Writes given middle after) : Writes given before after where
  feed := hsecond.feed.trans hfirst.feed
  raw := hsecond.raw.trans hfirst.raw
  numbered := hsecond.numbered ∘ hfirst.numbered
  samples := Nat.le_trans hfirst.samples hsecond.samples
  free := fun hnumbered count hcount hfree ↦ hsecond.free (hfirst.numbered hnumbered) count
    (Nat.le_trans hcount hfirst.samples) (hfirst.free hnumbered count hcount hfree)

/-! ## The writer's side -/

theorem start?_of_stop? (hstop : lane.stop? = none) : lane.start? = none := Option.map_eq_none_iff.mp hstop

theorem events_of_stop? (hstop : lane.stop? = none) : lane.feed.readIndex = none ∧ lane.events = [] := by
  have hstart := start?_of_stop? hstop
  rw [start?, Option.or_eq_none_iff, Option.map_eq_none_iff, List.head?_eq_none_iff] at hstart
  exact hstart

theorem Numbered.imp_raw (hnumbered : lane.Numbered given) (raw : List S) :
    ({ lane with raw := raw } : Lane S).Numbered given :=
  ⟨hnumbered.next, hnumbered.empty, hnumbered.fits, hnumbered.samples⟩

/-- Only the writer's own data changes. -/
theorem writes_ring (lane : Lane S) (ring : TapRing) : Writes given lane { lane with ring := ring } where
  feed := rfl
  raw := rfl
  numbered := fun hnumbered ↦ ⟨hnumbered.next, hnumbered.empty, hnumbered.fits, hnumbered.samples⟩
  samples := Nat.le_refl _
  free := fun _ _ _ hfree ↦ hfree

theorem queue_append (lane : Lane S) (event : TapEvent) :
    ({ lane with events := lane.events ++ [event] } : Lane S).queue = lane.queue ++ [event] := by
  rw [queue, queue, List.append_assoc]

theorem cuts_append (lane : Lane S) (event : TapEvent) :
    ({ lane with events := lane.events ++ [event] } : Lane S).cuts = lane.cuts ++ [event.cut] := by
  rw [cuts, queue_append, List.map_append, List.map_singleton, cuts]

theorem start?_append {start : ℕ} (hstart : lane.start? = some start) (event : TapEvent) :
    ({ lane with events := lane.events ++ [event] } : Lane S).start? = some start := by
  rcases Option.or_eq_some_iff.mp hstart with hread | ⟨hread, hevent⟩
  · exact Option.or_eq_some_iff.mpr (.inl hread)
  · obtain ⟨first, hfirst, hposition⟩ := Option.map_eq_some_iff.mp hevent
    apply Option.or_eq_some_iff.mpr
    refine .inr ⟨hread, ?_⟩
    show ((lane.events ++ [event]).head?).map TapEvent.position = some start
    rw [List.head?_append, hfirst, Option.some_or, Option.map_some, hposition]

/-- The first event of a lane. -/
theorem first_event (hnumbered : lane.Numbered given) (event : TapEvent) (hstop : lane.stop? = none) :
    ({ lane with events := lane.events ++ [event] } : Lane S).Numbered given ∧
      ({ lane with events := lane.events ++ [event] } : Lane S).stop? =
        some (event.position + event.cut.2) := by
  obtain ⟨hread, hevents⟩ := events_of_stop? hstop
  have hnext := hnumbered.next hread
  have hsamples := hnumbered.empty (start?_of_stop? hstop)
  have hstart : ({ lane with events := lane.events ++ [event] } : Lane S).start? = some event.position := by
    rw [start?, hread, hevents]
    rfl
  have hcuts : ({ lane with events := lane.events ++ [event] } : Lane S).cuts =
      [(event.position, event.cut.2)] := by
    rw [cuts, queue, hnext, hevents, ← event.cut_fst]
    rfl
  refine ⟨⟨hnumbered.next, fun _ ↦ hsamples, ?_, ?_⟩, ?_⟩
  · intro start hmem
    rw [hstart, Option.mem_some_iff] at hmem
    rw [hcuts, ← hmem, hsamples]
    exact ⟨Nat.le_refl _, Nat.le_refl _, trivial⟩
  · intro start hmem
    rw [hstart, Option.mem_some_iff] at hmem
    rw [hcuts, ← hmem, hsamples, Cuts.numbers, Cuts.numbers, Nat.sub_self, List.length_nil, Nat.add_zero,
      Nat.sub_self]
    rfl
  · rw [stop?, hstart, Option.map_some, hcuts, hsamples]
    rfl

/-- An event joins the queue at the position that the writer has come to. -/
theorem next_event (hnumbered : lane.Numbered given) (event : TapEvent)
    (hstop : lane.stop? = some event.position) :
    ({ lane with events := lane.events ++ [event] } : Lane S).Numbered given ∧
      ({ lane with events := lane.events ++ [event] } : Lane S).stop? =
        some (event.position + event.cut.2) := by
  obtain ⟨start, hstart, hposition⟩ := Option.map_eq_some_iff.mp hstop
  have hcut : event.cut = (Cuts.stop start lane.cuts lane.samples.length, event.cut.2) := by
    rw [hposition, ← event.cut_fst]
  have hfits := hnumbered.fits start hstart
  refine ⟨⟨hnumbered.next, ?_, ?_, ?_⟩, ?_⟩
  · intro hnone
    rw [start?_append hstart] at hnone
    cases hnone
  · intro other hother
    rw [start?_append hstart, Option.mem_some_iff] at hother
    rw [cuts_append, ← hother, hcut]
    exact Cuts.fits_append hfits _
  · intro other hother
    rw [start?_append hstart, Option.mem_some_iff] at hother
    rw [cuts_append, ← hother, hcut, Cuts.numbers_append hfits]
    exact hnumbered.samples start hstart
  · rw [stop?, start?_append hstart, Option.map_some, cuts_append, ← hposition, Cuts.stop, List.map_append,
      List.sum_append, Cuts.stop, Nat.add_assoc, Nat.add_assoc, Nat.add_assoc]
    rfl

/-- The events in front of the samples stay in front of them. -/
theorem free_append (event : TapEvent)
    (hstop : ∀ stop ∈ lane.stop?, stop = event.position) {count : ℕ} (hcount : count ≤ lane.samples.length)
    (hfree : lane.Free count) :
    ({ lane with events := lane.events ++ [event] } : Lane S).Free count := by
  intro read hread found hfound
  rw [queue_append, List.head?_append] at hfound
  cases hhead : lane.queue.head? with
  | some first =>
    rw [hhead, Option.some_or] at hfound
    exact hfree read hread found (hhead.trans hfound)
  | none =>
    rw [hhead, Option.none_or, List.head?_singleton, Option.mem_some_iff] at hfound
    have hqueue : lane.queue = [] := List.head?_eq_none_iff.mp hhead
    have hread : lane.feed.readIndex = some read := hread
    have hlast := hstop (read + lane.samples.length) (by
      rw [stop?, start?, hread, Option.some_or, Option.map_some, cuts, hqueue]
      rfl)
    rw [← hfound, ← hlast]
    exact Nat.add_le_add_left hcount read

theorem append_spec (hnumbered : lane.Numbered given) (event : TapEvent)
    (hstop : ∀ stop ∈ lane.stop?, stop = event.position) :
    Writes given lane { lane with events := lane.events ++ [event] } ∧
      ({ lane with events := lane.events ++ [event] } : Lane S).stop? =
        some (event.position + event.cut.2) := by
  have hspec : ({ lane with events := lane.events ++ [event] } : Lane S).Numbered given ∧
      ({ lane with events := lane.events ++ [event] } : Lane S).stop? =
        some (event.position + event.cut.2) := by
    cases hlast : lane.stop? with
    | none => exact first_event hnumbered event hlast
    | some stop =>
      rw [hstop stop hlast] at hlast
      exact next_event hnumbered event hlast
  refine ⟨⟨rfl, rfl, fun _ ↦ hspec.1, Nat.le_refl _, ?_⟩, hspec.2⟩
  intro _ count hcount hfree
  exact free_append event hstop hcount hfree

/-- Samples join the queue. -/
theorem samples_spec (hnumbered : lane.Numbered given) {index : ℕ} (hstop : lane.stop? = some index)
    (chunk : List S) (hchunk : chunk.map some = (List.range' index chunk.length).map given) :
    Writes given lane { lane with samples := lane.samples ++ chunk } ∧
      ({ lane with samples := lane.samples ++ chunk } : Lane S).stop? = some (index + chunk.length) := by
  obtain ⟨start, hstart, hindex⟩ := Option.map_eq_some_iff.mp hstop
  have hfits := hnumbered.fits start hstart
  have hlast : ({ lane with samples := lane.samples ++ chunk } : Lane S).stop? =
      some (index + chunk.length) := by
    show lane.start?.map (fun start ↦ Cuts.stop start lane.cuts (lane.samples ++ chunk).length) = _
    rw [hstart, Option.map_some, ← hindex, Cuts.stop, Cuts.stop, List.length_append]
    exact congrArg some (by omega)
  refine ⟨⟨rfl, rfl, fun _ ↦ ⟨hnumbered.next, ?_, ?_, ?_⟩, ?_, fun _ _ _ hfree ↦ hfree⟩, hlast⟩
  · intro hnone
    exact absurd (hnone.symm.trans hstart) (by simp)
  · intro other hother
    have hsame : start = other := Option.some.inj (hstart.symm.trans hother)
    rw [← hsame]
    show Cuts.Fits start lane.cuts (lane.samples ++ chunk).length
    rw [List.length_append]
    exact Cuts.fits_grow hfits _
  · intro other hother
    have hsame : start = other := Option.some.inj (hstart.symm.trans hother)
    rw [← hsame]
    show (lane.samples ++ chunk).map some =
      (Cuts.numbers start lane.cuts (lane.samples ++ chunk).length).map given
    rw [List.length_append, Cuts.numbers_grow hfits, List.map_append, List.map_append, hindex, hchunk,
      hnumbered.samples start hstart]
  · show lane.samples.length ≤ (lane.samples ++ chunk).length
    rw [List.length_append]
    exact Nat.le_add_right _ _

/-! ## The reader's side -/

/-- The reader knows of `visible` samples, and of what lies between them. -/
structure Ready (lane : Lane S) : Prop where
  visible : lane.feed.visible ≤ lane.samples.length
  free : lane.feed.next = none → lane.Free lane.feed.visible

theorem Ready.of_writes (hnumbered : before.Numbered given) (hready : before.Ready)
    (hwrites : Writes given before after) : after.Ready where
  visible := by
    rw [hwrites.feed]
    exact Nat.le_trans hready.visible hwrites.samples
  free := by
    rw [hwrites.feed]
    intro hnext
    exact hwrites.free hnumbered _ hready.visible (hready.free hnext)

theorem ready_le_skippable (feed : LaneFeed) : feed.ready ≤ feed.skippable := by
  rcases feed with ⟨read, next, visible, stop⟩
  cases read with
  | none => exact Nat.le_refl 0
  | some read =>
    cases next with
    | none => exact Nat.sub_le _ _
    | some event =>
      cases event with
      | gap position missing => exact Nat.le_refl _
      | stamp position hostNs => exact Nat.le_refl _
      | lane event =>
        cases event with
        | mark position mark =>
          show min visible (position - preGuard - read) ≤ min visible (position - read)
          omega
        | uncertain position error scope cause => exact Nat.le_refl _
        | hardwareTime position ns => exact Nat.le_refl _

/-- The reader has not gone past an event. -/
theorem Numbered.read_le (hnumbered : lane.Numbered given) {read : ℕ} {event : TapEvent}
    (hread : lane.feed.readIndex = some read) (hevent : event ∈ lane.queue.head?) : read ≤ event.position := by
  have hstart : lane.start? = some read := by rw [start?, hread, Option.some_or]
  have hfits := hnumbered.fits read hstart
  obtain ⟨rest, hqueue⟩ : ∃ rest, lane.queue = event :: rest := List.head?_eq_some_iff.mp hevent
  rw [cuts, hqueue, List.map_cons] at hfits
  exact hfits.1.trans_eq event.cut_fst

theorem Ready.of_le_skippable (hready : lane.Ready) (hnumbered : lane.Numbered given) {count : ℕ}
    (hcount : count ≤ lane.feed.skippable) :
    count ≤ lane.feed.visible ∧ count ≤ lane.samples.length ∧ lane.Free count := by
  have hvisible := hready.visible
  cases hread : lane.feed.readIndex with
  | none =>
    have hzero : count ≤ 0 := by simpa only [LaneFeed.skippable, hread] using hcount
    refine ⟨by omega, by omega, ?_⟩
    intro read hmem
    rw [hread] at hmem
    cases hmem
  | some read =>
    cases hnext : lane.feed.next with
    | none =>
      have hall : count ≤ lane.feed.visible := by
        simpa only [LaneFeed.skippable, hread, hnext] using hcount
      refine ⟨hall, by omega, ?_⟩
      intro other hother event hevent
      exact Nat.le_trans (Nat.add_le_add_left hall other) (hready.free hnext other hother event hevent)
    | some event =>
      have hevent : event ∈ lane.queue.head? := by
        rw [queue, hnext]
        rfl
      have hle := hnumbered.read_le hread hevent
      have hboth : count ≤ min lane.feed.visible (event.position - read) := by
        simpa only [LaneFeed.skippable, hread, hnext] using hcount
      refine ⟨by omega, by omega, ?_⟩
      intro other hother found hfound
      have hsame : event = found := Option.some.inj (Option.mem_def.mp hevent ▸ hfound)
      rw [hread, Option.mem_some_iff] at hother
      rw [← hother, ← hsame]
      omega

theorem numbered_iff {read : ℕ} (hread : lane.feed.readIndex = some read) :
    lane.Numbered given ↔ Cuts.Fits read lane.cuts lane.samples.length ∧
      lane.samples.map some = (Cuts.numbers read lane.cuts lane.samples.length).map given := by
  have hstart : lane.start? = some read := by rw [start?, hread, Option.some_or]
  constructor
  · exact fun hnumbered ↦ ⟨hnumbered.fits read hstart, hnumbered.samples read hstart⟩
  · rintro ⟨hfits, hsamples⟩
    refine ⟨?_, ?_, ?_, ?_⟩
    · rw [hread]
      exact fun hnone ↦ nomatch hnone
    · rw [hstart]
      exact fun hnone ↦ nomatch hnone
    · rw [hstart]
      rintro start ⟨⟩
      exact hfits
    · rw [hstart]
      rintro start ⟨⟩
      exact hsamples

theorem stop?_of_read {read : ℕ} (hread : lane.feed.readIndex = some read) :
    lane.stop? = some (Cuts.stop read lane.cuts lane.samples.length) := by
  rw [stop?, start?, hread, Option.some_or, Option.map_some]

/-- Samples leave the queue, with the numbers that the reader gives them. -/
theorem drop_spec (hnumbered : lane.Numbered given) {read count : ℕ}
    (hread : lane.feed.readIndex = some read) (hcount : count ≤ lane.samples.length)
    (hfree : lane.Free count) :
    Reads given lane { lane with samples := lane.samples.drop count, feed := lane.feed.advance count } ∧
      (lane.samples.take count).map some = (List.range' read count).map given := by
  obtain ⟨hfits, hsamples⟩ := (numbered_iff hread).mp hnumbered
  have hafter : (lane.feed.advance count).readIndex = some (read + count) := by
    rw [LaneFeed.advance, hread]
    rfl
  have hcut : ∀ cut ∈ lane.cuts.head?, read + count ≤ cut.1 := by
    intro cut hmem
    rw [cuts, List.head?_map, Option.mem_def, Option.map_eq_some_iff] at hmem
    obtain ⟨event, hevent, rfl⟩ := hmem
    rw [event.cut_fst]
    exact hfree read hread event hevent
  rw [Cuts.numbers_pass hcount hcut, List.map_append] at hsamples
  have hlength : ((List.range' read count).map given).length = count := by
    rw [List.length_map, List.length_range']
  refine ⟨⟨rfl, rfl, fun _ ↦ (numbered_iff hafter).mpr ⟨?_, ?_⟩, fun _ ↦ ?_, ?_⟩, ?_⟩
  · show Cuts.Fits (read + count) lane.cuts (lane.samples.drop count).length
    rw [List.length_drop]
    exact Cuts.fits_pass hfits hcount hcut
  · show (lane.samples.drop count).map some =
      (Cuts.numbers (read + count) lane.cuts (lane.samples.drop count).length).map given
    rw [List.map_drop, hsamples, List.length_drop, List.drop_left' hlength]
  · rw [stop?_of_read hafter, stop?_of_read hread]
    show some (Cuts.stop (read + count) lane.cuts (lane.samples.drop count).length) = _
    rw [Cuts.stop, Cuts.stop, List.length_drop]
    exact congrArg some (by omega)
  · show (lane.samples.drop count).length ≤ lane.samples.length
    rw [List.length_drop]
    exact Nat.sub_le _ _
  · rw [List.map_take, hsamples, List.take_left' hlength]

theorem Ready.drop (hready : lane.Ready) {count : ℕ} (hcount : count ≤ lane.feed.visible) :
    ({ lane with samples := lane.samples.drop count, feed := lane.feed.advance count } : Lane S).Ready where
  visible := by
    have hvisible := hready.visible
    show lane.feed.visible - count ≤ (lane.samples.drop count).length
    rw [List.length_drop]
    omega
  free := by
    intro hnext read hread event hevent
    obtain ⟨first, hfirst, rfl⟩ := Option.map_eq_some_iff.mp hread
    have hfree := hready.free hnext first hfirst event hevent
    show first + count + (lane.feed.visible - count) ≤ event.position
    omega

/-- The reader looks at the next event. -/
def peek (lane : Lane S) (event : TapEvent) (rest : List TapEvent) : Lane S :=
  { lane with
    feed := { lane.feed with
      next := some event, readIndex := some (lane.feed.readIndex.getD event.position) }
    events := rest }

/-- A lane behind its next event, which was applied or has to wait. -/
def settled (lane : Lane S) (event : TapEvent) (rest : List TapEvent) (notes : AlignNotes) :
    Option (LaneFeed × AlignNotes) → Bool × Lane S × AlignNotes
  | none => (false, lane.peek event rest, notes)
  | some (feed, notes) => (true, { lane with feed := { feed with next := none }, events := rest }, notes)

theorem settle_cases (lane : Lane S) (notes : AlignNotes) (number : ℕ) (offset : ℤ) :
    (lane.queue = [] ∧ lane.settle notes number offset = (false, lane, notes)) ∨
      ∃ event rest, lane.queue = event :: rest ∧
        (lane.settle notes number offset = (false, lane.peek event rest, notes) ∨
          ∃ feed notes', (lane.peek event rest).feed.apply notes event
              (lane.feed.readIndex.getD event.position) number offset = some (feed, notes') ∧
            lane.settle notes number offset =
              (true, { lane with feed := { feed with next := none }, events := rest }, notes')) := by
  have hpeeked : ∀ event rest, lane.queue = event :: rest →
      lane.settle notes number offset = lane.settled event rest notes
        ((lane.peek event rest).feed.apply notes event (lane.feed.readIndex.getD event.position)
          number offset) := by
    intro event rest hqueue
    cases hnext : lane.feed.next with
    | none =>
      rw [queue, hnext, Option.toList_none, List.nil_append] at hqueue
      simp only [settle, hnext, hqueue, List.head?_cons, List.tail_cons]
      rfl
    | some first =>
      rw [queue, hnext, Option.toList_some, List.singleton_append, List.cons.injEq] at hqueue
      simp only [settle, hnext, hqueue.1, hqueue.2]
      rfl
  cases hqueue : lane.queue with
  | nil =>
    left
    refine ⟨rfl, ?_⟩
    obtain ⟨hnext, hevents⟩ := List.append_eq_nil_iff.mp hqueue
    rw [Option.toList_eq_nil_iff] at hnext
    simp only [settle, hnext, hevents, List.head?_nil]
  | cons event rest =>
    right
    refine ⟨event, rest, rfl, ?_⟩
    rw [hpeeked event rest hqueue]
    cases (lane.peek event rest).feed.apply notes event (lane.feed.readIndex.getD event.position)
      number offset with
    | none => exact .inl rfl
    | some applied => exact .inr ⟨applied.1, applied.2, rfl, rfl⟩

theorem apply_spec {feed feed' : LaneFeed} {notes notes' : AlignNotes} {event : TapEvent} {read number : ℕ}
    {offset : ℤ} (happly : feed.apply notes event read number offset = some (feed', notes')) :
    feed'.visible = feed.visible ∧
      (event.cut.2 = 0 ∧ feed'.readIndex = feed.readIndex ∨
        event.position ≤ read ∧ feed'.readIndex = some (max read (event.position + event.cut.2))) := by
  unfold LaneFeed.apply at happly
  split at happly
  · cases happly
    exact ⟨rfl, .inl ⟨rfl, rfl⟩⟩
  · cases happly
    exact ⟨rfl, .inl ⟨rfl, rfl⟩⟩
  · obtain ⟨hle, hsome⟩ := Option.ite_none_right_eq_some.mp happly
    cases hsome
    exact ⟨rfl, .inr ⟨hle, rfl⟩⟩
  · obtain ⟨-, hsome⟩ := Option.ite_none_right_eq_some.mp happly
    cases hsome
    exact ⟨rfl, .inl ⟨rfl, rfl⟩⟩
  · obtain ⟨-, hsome⟩ := Option.ite_none_right_eq_some.mp happly
    split at hsome
    · cases hsome
      exact ⟨rfl, .inl ⟨rfl, rfl⟩⟩
    · cases hsome
      exact ⟨rfl, .inl ⟨rfl, rfl⟩⟩

/-- The reader of a lane does not go back. -/
def Ahead (before after : Lane S) : Prop :=
  ∀ read ∈ before.feed.readIndex, ∃ later ∈ after.feed.readIndex, read ≤ later

/-- What applying events changes. -/
structure Settles (given : ℕ → Option S) (before after : Lane S) : Prop where
  reads : Reads given before after
  samples : after.samples = before.samples
  visible : after.feed.visible = before.feed.visible
  ahead : before.Ahead after

theorem start?_of_queue (hnumbered : lane.Numbered given) {event : TapEvent} {rest : List TapEvent}
    (hqueue : lane.queue = event :: rest) :
    lane.start? = some (lane.feed.readIndex.getD event.position) := by
  cases hread : lane.feed.readIndex with
  | some read => rw [start?, hread, Option.some_or, Option.getD_some]
  | none =>
    rw [queue, hnumbered.next hread, Option.toList_none, List.nil_append] at hqueue
    rw [start?, hread, hqueue, Option.none_or, List.head?_cons, Option.map_some, Option.getD_none]

theorem ahead_of_getD {position later : ℕ} (hread : after.feed.readIndex = some later)
    (hle : before.feed.readIndex.getD position ≤ later) : before.Ahead after := by
  intro read hmem
  rw [Option.mem_def.mp hmem, Option.getD_some] at hle
  exact ⟨later, hread, hle⟩

theorem settles_peek (hnumbered : lane.Numbered given) {event : TapEvent} {rest : List TapEvent}
    (hqueue : lane.queue = event :: rest) : Settles given lane (lane.peek event rest) := by
  have hstart := start?_of_queue hnumbered hqueue
  have hcuts : (lane.peek event rest).cuts = lane.cuts := by
    rw [cuts, cuts, hqueue]
    rfl
  have hread : (lane.peek event rest).feed.readIndex =
      some (lane.feed.readIndex.getD event.position) := rfl
  refine ⟨⟨rfl, rfl, fun _ ↦ (numbered_iff hread).mpr ⟨?_, ?_⟩, fun _ ↦ ?_, Nat.le_refl _⟩, rfl, rfl,
    ahead_of_getD hread (Nat.le_refl _)⟩
  · rw [hcuts]
    exact hnumbered.fits _ hstart
  · rw [hcuts]
    exact hnumbered.samples _ hstart
  · rw [stop?_of_read hread, hcuts, stop?, hstart]
    rfl

/-- The event that is applied leaves the queue; a gap moves the reader past it. -/
theorem settles_apply (hnumbered : lane.Numbered given) {event : TapEvent} {rest : List TapEvent}
    (hqueue : lane.queue = event :: rest) {feed : LaneFeed} {notes notes' : AlignNotes} {number : ℕ}
    {offset : ℤ}
    (happly : (lane.peek event rest).feed.apply notes event (lane.feed.readIndex.getD event.position)
      number offset = some (feed, notes')) :
    Settles given lane { lane with feed := { feed with next := none }, events := rest } := by
  obtain ⟨hvisible, hmoved⟩ := apply_spec happly
  have hstart := start?_of_queue hnumbered hqueue
  have hfits := hnumbered.fits _ hstart
  have hsamples := hnumbered.samples _ hstart
  have hstop : lane.stop? = some (Cuts.stop (lane.feed.readIndex.getD event.position) lane.cuts
      lane.samples.length) := by rw [stop?, hstart, Option.map_some]
  have hcuts : lane.cuts = (event.position, event.cut.2) :: rest.map TapEvent.cut := by
    rw [cuts, hqueue, List.map_cons, ← event.cut_fst]
  rw [hcuts] at hfits hsamples hstop
  generalize hgiven : lane.feed.readIndex.getD event.position = read at *
  rcases hmoved with ⟨hnone, hread⟩ | ⟨hle, hread⟩
  · have hread : feed.readIndex = some read := by
      rw [hread, ← hgiven]
      rfl
    rw [hnone] at hfits hsamples hstop
    refine ⟨⟨rfl, rfl, fun _ ↦ (numbered_iff hread).mpr ⟨?_, ?_⟩, fun _ ↦ ?_, Nat.le_refl _⟩, rfl, hvisible,
      ahead_of_getD hread (Nat.le_of_eq hgiven)⟩
    · exact Cuts.fits_tail hfits
    · rw [Cuts.numbers_tail hfits] at hsamples
      exact hsamples
    · rw [stop?_of_read hread, hstop, Cuts.stop, Cuts.stop, List.map_cons, List.sum_cons, Nat.zero_add]
      rfl
  · have hsame : event.position = read := Nat.le_antisymm hle hfits.1
    rw [hsame, Nat.max_eq_right (Nat.le_add_right _ _)] at hread
    rw [hsame] at hfits hsamples hstop
    refine ⟨⟨rfl, rfl, fun _ ↦ (numbered_iff hread).mpr ⟨?_, ?_⟩, fun _ ↦ ?_, Nat.le_refl _⟩, rfl, hvisible,
      ahead_of_getD hread (Nat.le_trans (Nat.le_of_eq hgiven) (Nat.le_add_right _ _))⟩
    · have hrest := hfits.2.2
      rw [Nat.add_sub_cancel_left] at hrest
      exact hrest
    · rw [Cuts.numbers, Nat.sub_self, List.range'_zero, List.nil_append, Nat.add_sub_cancel_left] at hsamples
      exact hsamples
    · rw [stop?_of_read hread, hstop, Cuts.stop, Cuts.stop, List.map_cons, List.sum_cons]
      apply congrArg some
      show read + event.cut.2 + lane.samples.length + ((rest.map TapEvent.cut).map Prod.snd).sum = _
      omega

theorem settle_spec (hnumbered : lane.Numbered given) (notes : AlignNotes) (number : ℕ) (offset : ℤ) :
    Settles given lane (lane.settle notes number offset).2.1 ∧
      ((lane.settle notes number offset).1 = false → lane.feed.visible ≤ lane.samples.length →
        (lane.settle notes number offset).2.1.Ready) := by
  rcases lane.settle_cases notes number offset with
    ⟨hqueue, hsettle⟩ | ⟨event, rest, hqueue, hsettle | ⟨feed, notes', happly, hsettle⟩⟩
  · rw [hsettle]
    refine ⟨⟨.refl given lane, rfl, rfl, fun read hread ↦ ⟨read, hread, Nat.le_refl _⟩⟩, ?_⟩
    intro _ hvisible
    refine ⟨hvisible, fun _ read _ event hevent ↦ ?_⟩
    rw [hqueue] at hevent
    cases hevent
  · rw [hsettle]
    refine ⟨settles_peek hnumbered hqueue, ?_⟩
    intro _ hvisible
    exact ⟨hvisible, fun hnone ↦ nomatch hnone⟩
  · rw [hsettle]
    exact ⟨settles_apply hnumbered hqueue happly, fun hfalse ↦ nomatch hfalse⟩

theorem reads_look (given : ℕ → Option S) (lane : Lane S) : Reads given lane lane.look :=
  ⟨rfl, rfl, fun hnumbered ↦ ⟨hnumbered.next, hnumbered.empty, hnumbered.fits, hnumbered.samples⟩,
    fun _ ↦ rfl, Nat.le_refl _⟩

/-- Samples are passed over. -/
theorem skip_spec (hnumbered : lane.Numbered given) (hready : lane.Ready) {read count : ℕ}
    (hread : lane.feed.readIndex = some read) (hcount : count ≤ lane.feed.skippable) :
    (lane.skip count).1 = count ∧ Reads given lane (lane.skip count).2 ∧ (lane.skip count).2.Ready ∧
      (lane.skip count).2.feed.readIndex = some (read + count) := by
  obtain ⟨hvisible, hlength, hfree⟩ := hready.of_le_skippable hnumbered hcount
  rw [skip, Nat.min_eq_left hvisible]
  by_cases hzero : count = 0
  · rw [if_pos (.inl hzero)]
    refine ⟨hzero.symm, .refl given lane, hready, ?_⟩
    rw [hread, hzero]
    rfl
  · rw [if_neg (by omega)]
    refine ⟨rfl, (drop_spec hnumbered hread hlength hfree).1, hready.drop hvisible, ?_⟩
    show lane.feed.readIndex.map (· + count) = some (read + count)
    rw [hread, Option.map_some]

/-- Samples are taken. -/
theorem takeInto_spec (hnumbered : lane.Numbered given) (hready : lane.Ready) {read count : ℕ}
    (hread : lane.feed.readIndex = some read) (hcount : count ≤ lane.feed.ready)
    (hblock : count ≤ alignBlock) :
    Reads given lane (lane.takeInto count) ∧ (lane.takeInto count).feed.readIndex = some (read + count) ∧
      (lane.takeInto count).raw.map some = (List.range' read count).map given := by
  obtain ⟨hvisible, hlength, hfree⟩ := hready.of_le_skippable hnumbered
    (Nat.le_trans hcount (ready_le_skippable lane.feed))
  obtain ⟨hreads, htaken⟩ := drop_spec hnumbered hread hlength hfree
  simp only [takeInto, Nat.min_eq_left hvisible, Nat.min_eq_left hblock]
  rw [if_neg (by omega)]
  refine ⟨?_, ?_, htaken⟩
  · exact ⟨hreads.ring, hreads.capacity,
      fun hnumbered ↦ (hreads.numbered hnumbered).imp_raw _, hreads.stop, hreads.samples⟩
  · show lane.feed.readIndex.map (· + count) = some (read + count)
    rw [hread, Option.map_some]

end Lane

end Sdrmm.Align
