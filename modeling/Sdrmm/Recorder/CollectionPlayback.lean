import Sdrmm.Recorder.CollectionEvents

/-!
# A recording plays back what was recorded

Reading delivers every event where it stands and the samples between, so that the chunks say what the
events say, and these say what the calls of the writer said: but for what is missing before the first
sample, which the first capture's global index keeps and no event tells, and for an empty noise span that
stands free, whose switch to off comes before its switch to on.
-/

namespace Sdrmm.Collection

open Sdrmm.Lib

variable {α F : Type}

/-! ## What is heard -/

namespace ReadChunk

def length : ReadChunk F → ℕ
  | .samples count => count
  | _ => 0

def missing : ReadChunk F → ℕ
  | .gap missing => missing
  | _ => 0

def centers : ReadChunk F → Option (List F)
  | .retuned centers => some centers
  | _ => none

def lags : ReadChunk F → Option (Option (List ℤ))
  | .offsets shifts => some (some shifts)
  | _ => none

def isOn : ReadChunk F → Option Bool
  | .noise on => some on
  | _ => none

def event : ReadChunk F → Option (Event F)
  | .gap missing => some (.gap missing)
  | .noise on => some (.noise on)
  | .retuned centers => some (.retuned centers)
  | .offsets shifts => some (.offsets shifts)
  | _ => none

theorem centers_eq (chunk : ReadChunk F) : chunk.centers = chunk.event.bind Event.centers := by
  cases chunk with
  | _ => rfl

theorem lags_eq (chunk : ReadChunk F) : chunk.lags = chunk.event.bind Event.lags := by
  cases chunk with
  | _ => rfl

theorem isOn_eq (chunk : ReadChunk F) : chunk.isOn = chunk.event.bind Event.isOn := by
  cases chunk with
  | _ => rfl

end ReadChunk

/-- The chunks until the end, each with the buffers behind it. -/
abbrev History (α F : Type) := List (ReadChunk F × List (List α))

/-- The samples of a lane. -/
def History.heard (history : History α F) (lane : ℕ) : List α :=
  history.flatMap fun entry ↦
    match entry.1 with
    | .samples _ => entry.2[lane]?.getD []
    | _ => []

/-- The chunks, each with the samples that were delivered before. -/
def History.played (history : History α F) : List (ℕ × ReadChunk F) :=
  Timeline.stamp ReadChunk.length 0 (history.map Prod.fst)

/-- A reader within its recording: the samples of the lanes are as long as the recording, and the events
that are left stand at or behind the position. -/
structure Reading (reader : CollectionReader α F) : Prop where
  lanes : ∀ lane ∈ reader.lanes, lane.data.length = reader.total ∧ lane.pos = reader.position
  position_le : reader.position ≤ reader.total
  ordered : reader.events.Pairwise fun a b ↦ a.1 ≤ b.1
  within : ∀ event ∈ reader.events, reader.position ≤ event.1 ∧ event.1 ≤ reader.total

namespace Reading

variable {reader : CollectionReader α F}

/-- The blocks that the lanes deliver next. -/
def blocks (reader : CollectionReader α F) (n : ℕ) : List (List α) :=
  reader.lanes.map fun lane ↦ (lane.data.drop reader.position).take n

def advanced (reader : CollectionReader α F) (n : ℕ) : CollectionReader α F :=
  { reader with
    lanes := reader.lanes.map fun lane ↦ { lane with pos := reader.position + n }
    position := reader.position + n }

theorem readLanes (hreading : Reading reader) {n : ℕ} (hn : reader.position + n ≤ reader.total) :
    CollectionReader.readLanes reader.lanes n =
      .ok (blocks reader n, (advanced reader n).lanes) := by
  have hblock : ∀ lane ∈ reader.lanes, lane.readBlock n =
      ((lane.data.drop reader.position).take n, { lane with pos := reader.position + n }) := by
    intro lane hlane
    obtain ⟨hlength, hpos⟩ := hreading.lanes lane hlane
    have htaken : ((lane.data.drop reader.position).take n).length = n := by
      rw [List.length_take, List.length_drop]
      omega
    rw [SigmfReader.readBlock, hpos, htaken]
  have hblocks : reader.lanes.map (fun lane ↦ lane.readBlock n) = reader.lanes.map fun lane ↦
      ((lane.data.drop reader.position).take n, { lane with pos := reader.position + n }) :=
    List.map_congr_left hblock
  rw [CollectionReader.readLanes]
  dsimp only
  rw [hblocks]
  have hfull : ((reader.lanes.map fun lane ↦ ((lane.data.drop reader.position).take n,
      { lane with pos := reader.position + n })).zipIdx.find? fun block ↦ block.1.1.length != n) =
      none := by
    rw [List.find?_eq_none]
    intro block hblock
    obtain ⟨lane, hlane, heq⟩ := List.mem_map.mp (List.fst_mem_of_mem_zipIdx hblock)
    obtain ⟨hlength, -⟩ := hreading.lanes lane hlane
    rw [← heq]
    simp only [List.length_take, List.length_drop, bne_iff_ne, ne_eq, not_not]
    omega
  rw [hfull]
  simp only [List.map_map]
  rfl

theorem readUntil (hreading : Reading reader) (out : List (List α)) {max limit : ℕ} (hmax : 1 ≤ max)
    (hlimit : limit ≤ reader.total) (hahead : reader.position < limit) :
    ∃ n, 1 ≤ n ∧ reader.position + n ≤ limit ∧
      reader.readUntil out max limit = .ok (.samples n, blocks reader n, advanced reader n) := by
  refine ⟨min (limit - reader.position) max, by omega, by omega, ?_⟩
  rw [CollectionReader.readUntil, if_neg (by omega)]
  dsimp only
  rw [hreading.readLanes (by omega), ok_bind]
  rfl

/-- A read delivers the event at the position, else samples up to the next event, else the end. -/
theorem read_cases (hreading : Reading reader) {out : List (List α)}
    (hout : out.length = reader.lanes.length) {max : ℕ} (hmax : 1 ≤ max) :
    (∃ event events, reader.events = (reader.position, event) :: events ∧
      reader.read out max = .ok (event.intoChunk, out, { reader with events := events })) ∨
    (∃ n, 1 ≤ n ∧ reader.position + n ≤ reader.total ∧
      (∀ event ∈ reader.events, reader.position + n ≤ event.1) ∧
      reader.read out max = .ok (.samples n, blocks reader n, advanced reader n)) ∨
    (reader.events = [] ∧ reader.position = reader.total ∧
      reader.read out max = .ok (.ended, out, reader)) := by
  rw [CollectionReader.read, if_neg (not_not.mpr hout)]
  cases hevents : reader.events with
  | nil =>
    have hle := hreading.position_le
    by_cases hend : reader.position = reader.total
    · refine .inr (.inr ⟨rfl, hend, ?_⟩)
      dsimp only
      rw [CollectionReader.readUntil, if_pos (by omega)]
    · obtain ⟨n, hpos, hn, hread⟩ := hreading.readUntil out hmax (Nat.le_refl _) (by omega)
      exact .inr (.inl ⟨n, hpos, hn, fun _ hevent ↦ absurd hevent List.not_mem_nil, hread⟩)
  | cons first events =>
    obtain ⟨at₀, event⟩ := first
    obtain ⟨hfrom, huntil⟩ := hreading.within (at₀, event) (by rw [hevents]; exact List.mem_cons_self)
    dsimp only at hfrom huntil ⊢
    by_cases hdue : at₀ ≤ reader.position ∨ reader.total ≤ reader.position
    · have hat : at₀ = reader.position := by omega
      refine .inl ⟨event, events, by rw [hat], ?_⟩
      rw [if_pos hdue]
    · obtain ⟨n, hpos, hn, hread⟩ := hreading.readUntil out hmax
        (Nat.min_le_right at₀ reader.total) (by omega)
      refine .inr (.inl ⟨n, hpos, by omega, ?_, ?_⟩)
      · have hordered := hreading.ordered
        rw [hevents] at hordered
        intro other hother
        rcases List.mem_cons.mp hother with rfl | hother
        · dsimp only
          omega
        · have := (List.pairwise_cons.mp hordered).1 other hother
          dsimp only at this
          omega
      · rw [if_neg hdue, hread]

theorem dropEvent (hreading : Reading reader) {event : ℕ × Event F} {events : List (ℕ × Event F)}
    (hevents : reader.events = event :: events) : Reading { reader with events := events } where
  lanes := hreading.lanes
  position_le := hreading.position_le
  ordered := by
    have hordered := hreading.ordered
    rw [hevents] at hordered
    exact (List.pairwise_cons.mp hordered).2
  within other hother := by
    apply hreading.within
    rw [hevents]
    exact List.mem_cons_of_mem _ hother

theorem advance (hreading : Reading reader) {n : ℕ} (hn : reader.position + n ≤ reader.total)
    (hevents : ∀ event ∈ reader.events, reader.position + n ≤ event.1) : Reading (advanced reader n) where
  lanes lane hlane := by
    obtain ⟨before, hbefore, rfl⟩ := List.mem_map.mp hlane
    exact ⟨(hreading.lanes before hbefore).1, rfl⟩
  position_le := hn
  ordered := hreading.ordered
  within event hevent := ⟨hevents event hevent, (hreading.within event hevent).2⟩

theorem length_blocks (reader : CollectionReader α F) (n : ℕ) :
    (blocks reader n).length = (advanced reader n).lanes.length := by
  rw [blocks, advanced, List.length_map, List.length_map]

theorem playback_succ {out after : List (List α)} {max : ℕ → ℕ} {chunk : ReadChunk F}
    {next : CollectionReader α F} (hread : reader.read out (max 0) = .ok (chunk, after, next))
    (hchunk : chunk ≠ .ended) (fuel : ℕ) :
    reader.playback out max (fuel + 1) =
      (next.playback after (fun i ↦ max (i + 1)) fuel).map ((chunk, after) :: ·) := by
  rw [CollectionReader.playback, hread]
  cases chunk with
  | ended => exact absurd rfl hchunk
  | _ => rfl

theorem intoChunk_ne_ended (event : Event F) : event.intoChunk ≠ .ended := by
  cases event with
  | _ => exact fun h ↦ nomatch h

/-- Reading comes to the end. -/
theorem playback_ends (hreading : Reading reader) {out : List (List α)}
    (hout : out.length = reader.lanes.length) {max : ℕ → ℕ} (hmax : ∀ i, 1 ≤ max i) :
    ∃ fuel history, reader.playback out max fuel = some history := by
  induction hleft : reader.events.length + (reader.total - reader.position) using
    Nat.strong_induction_on generalizing reader out max with
  | _ left ih =>
    rcases hreading.read_cases hout (hmax 0) with ⟨event, events, hevents, hread⟩ |
      ⟨n, hpos, hn, hbefore, hread⟩ | ⟨-, -, hread⟩
    · have hless : events.length + (reader.total - reader.position) < left := by
        rw [hevents, List.length_cons] at hleft
        omega
      obtain ⟨fuel, history, hplay⟩ :=
        ih _ hless (hreading.dropEvent hevents) hout (fun i ↦ hmax (i + 1)) rfl
      refine ⟨fuel + 1, (event.intoChunk, out) :: history, ?_⟩
      rw [playback_succ hread (intoChunk_ne_ended event), hplay, Option.map_some]
    · have hless : reader.events.length + (reader.total - (reader.position + n)) < left := by omega
      obtain ⟨fuel, history, hplay⟩ := ih _ hless (hreading.advance hn hbefore)
        (length_blocks reader n) (fun i ↦ hmax (i + 1)) rfl
      refine ⟨fuel + 1, (.samples n, blocks reader n) :: history, ?_⟩
      rw [playback_succ hread (fun h ↦ nomatch h), hplay, Option.map_some]
    · refine ⟨1, [], ?_⟩
      rw [CollectionReader.playback, hread]

theorem event_intoChunk (event : Event F) :
    event.intoChunk.event = some event ∧ event.intoChunk.length = 0 := by
  cases event with
  | _ => exact ⟨rfl, rfl⟩

theorem heard_intoChunk (event : Event F) (out : List (List α)) (history : History α F) (lane : ℕ) :
    History.heard ((event.intoChunk, out) :: history) lane = history.heard lane := by
  cases event with
  | _ => rfl

/-- What is read until the end: every event where it stands, and of every lane the samples that are
left. -/
theorem playback_sound (hreading : Reading reader) {out : List (List α)}
    (hout : out.length = reader.lanes.length) {max : ℕ → ℕ} (hmax : ∀ i, 1 ≤ max i) {fuel : ℕ}
    {history : History α F} (hplay : reader.playback out max fuel = some history) :
    Timeline.pick ReadChunk.event
        (Timeline.stamp ReadChunk.length reader.position (history.map Prod.fst)) = reader.events ∧
      ∀ index lane, reader.lanes[index]? = some lane →
        history.heard index = lane.data.drop reader.position := by
  induction fuel generalizing reader out max history with
  | zero => cases hplay
  | succ fuel ih =>
    rcases hreading.read_cases hout (hmax 0) with ⟨event, events, hevents, hread⟩ |
      ⟨n, hpos, hn, hbefore, hread⟩ | ⟨hevents, hend, hread⟩
    · rw [playback_succ hread (intoChunk_ne_ended event)] at hplay
      obtain ⟨more, hmore, rfl⟩ := Option.map_eq_some_iff.mp hplay
      obtain ⟨hpick, hheard⟩ := ih (hreading.dropEvent hevents) hout (fun i ↦ hmax (i + 1)) hmore
      obtain ⟨hevent, hlength⟩ := event_intoChunk event
      constructor
      · dsimp only at hpick
        rw [List.map_cons, Timeline.stamp, hlength, Nat.add_zero, Timeline.pick,
          List.filterMap_cons_some (by rw [hevent]; rfl), ← Timeline.pick, hpick, hevents]
      · intro index lane hlane
        rw [heard_intoChunk]
        exact hheard index lane hlane
    · rw [playback_succ hread (by simp)] at hplay
      obtain ⟨more, hmore, rfl⟩ := Option.map_eq_some_iff.mp hplay
      obtain ⟨hpick, hheard⟩ := ih (hreading.advance hn hbefore) (length_blocks reader n)
        (fun i ↦ hmax (i + 1)) hmore
      constructor
      · exact hpick
      · intro index lane hlane
        have hblock : (blocks reader n)[index]? = some ((lane.data.drop reader.position).take n) := by
          rw [blocks, List.getElem?_map, hlane, Option.map_some]
        have hrest := hheard index { lane with pos := reader.position + n } (by
          rw [advanced, List.getElem?_map, hlane, Option.map_some])
        calc History.heard ((.samples n, blocks reader n) :: more) index
            = ((blocks reader n)[index]?.getD []) ++ History.heard more index := rfl
          _ = (lane.data.drop reader.position).take n ++ lane.data.drop (reader.position + n) := by
            rw [hblock, Option.getD_some, hrest]
            rfl
          _ = lane.data.drop reader.position := by
            rw [← List.drop_drop, List.take_append_drop]
    · rw [CollectionReader.playback, hread] at hplay
      obtain rfl := Option.some.inj hplay
      refine ⟨hevents.symm, fun index lane hlane ↦ ?_⟩
      obtain ⟨hlength, -⟩ := hreading.lanes lane (List.mem_of_getElem? hlane)
      rw [List.drop_eq_nil_of_le (by omega)]
      rfl

end Reading

/-! ## Opening what was written -/

/-- The switches of spans that end within 64 bits. -/
def spanEvents (spans : List (ℕ × ℕ)) : List (ℕ × Event F) :=
  spans.flatMap fun span ↦ [(span.1, .noise true), (span.1 + span.2, .noise false)]

theorem noiseEvents_spans {spans : List (ℕ × ℕ)} (hsmall : ∀ span ∈ spans, span.1 + span.2 < 2 ^ 64) :
    (noiseEvents (spans.map fun span ↦ ⟨span.1, span.2, noiseLabel⟩) : List (ℕ × Event F)) =
      spanEvents spans := by
  rw [noiseEvents, List.flatMap_map, spanEvents]
  apply List.flatMap_congr
  intro span hspan
  have := hsmall span hspan
  dsimp only
  rw [if_pos rfl, Nat.min_eq_left (by omega)]

theorem length_data {calls : List (Call α F)} {lanes : ℕ} (hfits : ∀ call ∈ calls, call.Fits lanes)
    {lane : ℕ} (hlane : lane < lanes) : (calls.flatMap (Call.block lane)).length = written calls := by
  rw [List.length_flatMap, written]
  congr 1
  apply List.map_congr_left
  intro call hcall
  have hfit := hfits call hcall
  cases call with
  | write blocks =>
    obtain ⟨hlength, hequal⟩ := hfit
    have hblock := List.getElem?_eq_getElem (hlength.symm ▸ hlane : lane < blocks.length)
    cases blocks with
    | nil => cases hblock
    | cons first blocks =>
      rw [Call.block, hblock, Option.getD_some]
      exact hequal _ (List.mem_of_getElem? hblock) first List.mem_cons_self
  | _ => rfl

/-- The files of a lane, as they are opened. -/
def openedLane (calls : List (Call α F)) (marks : List (Mark F)) (index : ℕ) : SigmfReader α F :=
  .ofFiles (Marks.lane calls marks index)

section Opened

variable {centers : List F} {calls : List (Call α F)} {mark : Mark F} {older : List (Mark F)}

theorem Marks.centersAt_opened [Zero F] (hmarks : Marks centers calls mark older) {index : ℕ}
    {other : Mark F} (hother : (mark :: older).reverse[index]? = some other) :
    centersAt ((List.range centers.length).map (openedLane calls (mark :: older))) index =
      other.centers := by
  have hmem : other ∈ mark :: older := List.mem_reverse.mp (List.mem_of_getElem? hother)
  have hcenters : other.centers.map id = (List.range other.centers.length).map fun lane ↦
      ((openedLane calls (mark :: older) lane).captures[index]?.bind SigmfCapture.frequency).getD 0 := by
    apply map_eq_map_range
    intro lane center hcenter
    simp only [openedLane, SigmfReader.ofFiles, Marks.lane, List.getElem?_map, hother, Option.map_some,
      Option.bind_some, Mark.capture, hcenter, Option.getD_some, id_eq]
  rw [centersAt, List.map_map, ← hmarks.lanes other hmem]
  rw [List.map_id] at hcenters
  exact hcenters.symm

theorem misaligned_opened (hfits : ∀ call ∈ calls, call.Fits centers.length)
    (hlanes : 0 < centers.length) (marks : List (Mark F)) :
    CollectionReader.misaligned (openedLane calls marks 0)
      ((List.range centers.length).map (openedLane calls marks)) = none := by
  rw [CollectionReader.misaligned, Option.map_eq_none_iff, List.find?_eq_none]
  intro entry hentry
  have hmem := List.fst_mem_of_mem_zipIdx (List.mem_of_mem_drop hentry)
  obtain ⟨lane, hlane, heq⟩ := List.mem_map.mp hmem
  have htotal : ∀ lane < centers.length,
      (openedLane calls marks lane).totalSamples = written calls :=
    fun lane hlane ↦ length_data hfits hlane
  have hstarts : ∀ lane, (openedLane calls marks lane).captures.map SigmfCapture.sampleStart =
      marks.reverse.map Mark.start := by
    intro lane
    simp only [openedLane, SigmfReader.ofFiles, Marks.lane, List.map_map]
    rfl
  rw [← heq, htotal lane (List.mem_range.mp hlane), htotal 0 hlanes, hstarts, hstarts,
    bne_self_eq_false, bne_self_eq_false]
  decide

variable [BEq F] [Zero F]

theorem Marks.eventsOf_opened (hmarks : Marks centers calls mark older)
    (hsmall : ∀ span ∈ spans calls, span.1 + span.2 < 2 ^ 64) :
    eventsOf ((List.range centers.length).map (openedLane calls (mark :: older)))
        (openedLane calls (mark :: older) 0) =
      .ok ((captured (mark :: older).reverse ++ spanEvents (spans calls)).mergeSort Event.before) := by
  have hcounted : ∀ other ∈ (mark :: older).reverse, other.start + other.missing < 2 ^ 64 :=
    fun other hother ↦ hmarks.counted other (List.mem_reverse.mp hother)
  have hcaptures := captureEvents_marks (fun _ _ hother ↦ hmarks.centersAt_opened hother) hcounted
    hmarks.ascending
  rw [eventsOf, openedLane, SigmfReader.ofFiles, Marks.lane]
  dsimp only
  rw [hcaptures, ok_bind, noiseEvents_spans hsmall]
  rfl

/-- What a reader of the finished files holds. -/
theorem Recorded.open {writer : CollectionWriter α F} (hrecorded : Recorded centers calls writer)
    (hlanes : 0 < centers.length) (hfits : ∀ call ∈ calls, call.Fits centers.length)
    (hinside : ∀ span ∈ spans calls, span.1 + span.2 ≤ written calls) :
    ∃ mark older reader, Marks centers calls mark older ∧
      CollectionReader.openFiles writer.finalize = .ok reader ∧ Reading reader ∧
      reader.position = 0 ∧ reader.total = written calls ∧
      reader.lanes = (List.range centers.length).map (openedLane calls (mark :: older)) ∧
      (∃ first, (mark :: older).reverse.head? = some first ∧ reader.centers = first.centers) ∧
      reader.events = (captured (mark :: older).reverse ++ spanEvents (spans calls)).mergeSort
        Event.before := by
  obtain ⟨mark, older, hmarks, hwriter⟩ := hrecorded.lanes
  have hsmall : ∀ span ∈ spans calls, span.1 + span.2 < 2 ^ 64 :=
    fun span hspan ↦ Nat.lt_of_le_of_lt (hinside span hspan) hrecorded.written_lt
  obtain ⟨first, marks, hreverse, -, -⟩ := hmarks.exists_first
  have hfirst : (mark :: older).reverse[0]? = some first := by
    rw [hreverse]
    rfl
  have hopened : writer.finalize.map SigmfReader.ofFiles =
      (List.range centers.length).map (openedLane calls (mark :: older)) := by
    rw [CollectionWriter.finalize, hwriter, List.map_map]
    rfl
  have hhead : ((List.range centers.length).map (openedLane calls (mark :: older))).head? =
      some (openedLane calls (mark :: older) 0) := by
    rw [List.head?_map, List.head?_range, if_neg (by omega)]
    rfl
  have hread : CollectionReader.openFiles writer.finalize = .ok
      { lanes := (List.range centers.length).map (openedLane calls (mark :: older))
        centers := first.centers
        events := (captured (mark :: older).reverse ++ spanEvents (spans calls)).mergeSort Event.before
        total := written calls } := by
    rw [CollectionReader.openFiles, hopened, hhead]
    simp only [misaligned_opened hfits hlanes]
    rw [hmarks.eventsOf_opened hsmall, ok_bind, hmarks.centersAt_opened hfirst,
      show (openedLane calls (mark :: older) 0).totalSamples = written calls from
        length_data hfits hlanes]
    rfl
  refine ⟨mark, older, _, hmarks, hread, ⟨?_, Nat.zero_le _, ordered_mergeSort _, ?_⟩, rfl, rfl, rfl,
    ⟨first, by rw [hreverse]; rfl, rfl⟩, rfl⟩
  · intro lane hlane
    obtain ⟨index, hindex, rfl⟩ := List.mem_map.mp hlane
    exact ⟨length_data hfits (List.mem_range.mp hindex), rfl⟩
  · intro event hevent
    refine ⟨Nat.zero_le _, ?_⟩
    rw [List.mem_mergeSort, List.mem_append] at hevent
    rcases hevent with hevent | hevent
    · exact hmarks.le_written_of_mem_captured hevent
    · obtain ⟨span, hspan, hevent⟩ := List.mem_flatMap.mp hevent
      have := hinside span hspan
      rcases List.mem_cons.mp hevent with rfl | hevent
      · dsimp only
        omega
      · rw [List.mem_singleton.mp hevent]
        exact this

end Opened

/-! ## A session -/

/-- The calls that are made between the creation of a writer and its end, for lanes with these first
centers. -/
structure Session (α F : Type) where
  centers : List F
  now : String
  calls : List (Call α F)
  lanes_pos : 0 < centers.length
  fits : ∀ call ∈ calls, call.Fits centers.length
  inside : ∀ span ∈ spans calls, span.1 + span.2 ≤ written calls
  disjoint : Disjoint (spans calls)

namespace Session

/-- What was heard is what was recorded. -/
structure Faithful (session : Session α F) (reader : CollectionReader α F) (history : History α F) :
    Prop where
  samples : ∀ lane < session.centers.length,
    history.heard lane = session.calls.flatMap (Call.block lane)
  gaps : ∀ at₀, Timeline.sumAt ReadChunk.missing at₀ history.played =
    Timeline.sumAt Call.missing at₀ (stamped session.calls)
  centers : ∀ at₀, Timeline.latest ReadChunk.centers at₀ reader.centers history.played =
    Timeline.latest Call.centers at₀ session.centers (stamped session.calls)
  offsets : ∀ at₀, Timeline.latest ReadChunk.lags at₀ none history.played =
    Timeline.latest Call.lags at₀ none (stamped session.calls)
  noise : ∀ at₀ < written session.calls,
    Timeline.latest ReadChunk.isOn at₀ false history.played = true ↔
      ∃ span ∈ spans session.calls, InSpan span at₀

/-- The session can be recorded, what is recorded can be opened, and however it is read, the end is
reached and what was heard is what was recorded. -/
def PlaysBack [BEq F] [Zero F] (session : Session α F) : Prop :=
  ∃ writer reader, (CollectionWriter.create session.centers session.now).run session.calls = .ok writer ∧
    CollectionReader.openFiles writer.finalize = .ok reader ∧
    ∀ out : List (List α), out.length = session.centers.length → ∀ max : ℕ → ℕ, (∀ i, 1 ≤ max i) →
      (∃ fuel history, reader.playback out max fuel = some history) ∧
      ∀ fuel history, reader.playback out max fuel = some history → session.Faithful reader history

/-- No gap is recorded before the first sample. -/
def NoLeadingGap (session : Session α F) : Prop :=
  ∀ call ∈ stamped session.calls, call.1 = 0 → call.2.missing = 0

/-- The condition under which a session plays back as it was recorded. -/
def Playable (session : Session α F) : Prop :=
  Counted [] session.calls ∧ session.NoLeadingGap ∧
    EmptyCovered (spans session.calls) (written session.calls)

section Heard

theorem latest_event {β : Type} {chunks : ReadChunk F → Option β} {events : Event F → Option β}
    (hsame : ∀ chunk, chunks chunk = chunk.event.bind events) (at₀ : ℕ) (held : β)
    (played : List (ℕ × ReadChunk F)) :
    Timeline.latest chunks at₀ held played =
      Timeline.latest events at₀ held (Timeline.pick ReadChunk.event played) := by
  induction played generalizing held with
  | nil => rfl
  | cons entry played ih =>
    rw [Timeline.latest_cons, hsame, ih, Timeline.pick, Timeline.pick]
    cases hevent : entry.2.event with
    | none =>
      rw [List.filterMap_cons_none (by rw [hevent]; rfl), Option.bind_none, Option.getD_none, ite_self]
    | some event =>
      rw [List.filterMap_cons_some (by rw [hevent]; rfl), Timeline.latest_cons, Option.bind_some]

theorem sumAt_event (at₀ : ℕ) (played : List (ℕ × ReadChunk F)) :
    Timeline.sumAt ReadChunk.missing at₀ played =
      Timeline.sumAt Event.missing at₀ (Timeline.pick ReadChunk.event played) := by
  induction played with
  | nil => rfl
  | cons entry played ih =>
    obtain ⟨position, chunk⟩ := entry
    rw [Timeline.sumAt_cons, ih]
    cases chunk with
    | samples count => exact (congrArg (· + _) (ite_self 0)).trans (Nat.zero_add _)
    | ended => exact (congrArg (· + _) (ite_self 0)).trans (Nat.zero_add _)
    | _ => rfl

end Heard

variable [BEq F]

theorem isOn_of_mem_captured {marks : List (Mark F)} {event : ℕ × Event F}
    (hevent : event ∈ captured marks) : event.2.isOn = none := by
  have hafter : ∀ mark previous : Mark F, ∀ event ∈ mark.eventsAfter previous, event.2.isOn = none := by
    intro mark previous event hevent
    simp only [Mark.eventsAfter, List.mem_append, List.mem_map, List.mem_ite_nil_right,
      List.mem_singleton] at hevent
    rcases hevent with (⟨-, rfl⟩ | ⟨-, rfl⟩) | ⟨shifts, -, rfl⟩
    · rfl
    · rfl
    · rfl
  have hmarks : ∀ marks : List (Mark F), ∀ event ∈ markEvents marks, event.2.isOn = none := by
    intro marks event hevent
    induction marks using markEvents.induct with
    | case1 previous mark marks ih =>
      rw [markEvents, List.mem_append] at hevent
      rcases hevent with hevent | hevent
      · exact hafter mark previous event hevent
      · exact ih hevent
    | case2 marks hshort =>
      rw [markEvents] at hevent
      · cases hevent
      · exact hshort
  cases marks with
  | nil => cases hevent
  | cons first marks =>
    rw [captured, List.mem_append] at hevent
    rcases hevent with hevent | hevent
    · obtain ⟨shifts, -, rfl⟩ := List.mem_map.mp hevent
      rfl
    · exact hmarks _ event hevent

theorem mem_switches {marks : List (Mark F)} {spans : List (ℕ × ℕ)} {position : ℕ} {on : Bool} :
    (position, on) ∈ Timeline.pick Event.isOn
        ((captured marks ++ spanEvents spans).mergeSort Event.before) ↔
      ∃ span ∈ spans, position = if on then span.1 else span.1 + span.2 := by
  rw [Timeline.mem_pick]
  constructor
  · rintro ⟨event, hevent, hon⟩
    rw [List.mem_mergeSort, List.mem_append] at hevent
    rcases hevent with hevent | hevent
    · cases (isOn_of_mem_captured hevent).symm.trans hon
    · obtain ⟨span, hspan, hevent⟩ := List.mem_flatMap.mp hevent
      refine ⟨span, hspan, ?_⟩
      rcases List.mem_cons.mp hevent with heq | hevent
      · obtain ⟨rfl, rfl⟩ := Prod.mk.inj heq
        obtain rfl := Option.some.inj hon
        rfl
      · obtain ⟨rfl, rfl⟩ := Prod.mk.inj (List.mem_singleton.mp hevent)
        obtain rfl := Option.some.inj hon
        rfl
  · rintro ⟨span, hspan, rfl⟩
    refine ⟨.noise on, ?_, rfl⟩
    rw [List.mem_mergeSort, List.mem_append]
    refine .inr (List.mem_flatMap.mpr ⟨span, hspan, ?_⟩)
    cases on with
    | true => exact List.mem_cons_self
    | false => exact List.mem_cons_of_mem _ List.mem_cons_self

/-- What is heard of the noise. -/
theorem latest_isOn_sorted (marks : List (Mark F)) (spans : List (ℕ × ℕ)) (at₀ : ℕ) :
    Timeline.latest Event.isOn at₀ false
        ((captured marks ++ spanEvents spans).mergeSort Event.before) = true ↔
      ∃ start ∈ spans.map Prod.fst, start ≤ at₀ ∧
        ∀ span ∈ spans, span.1 + span.2 ≤ at₀ → span.1 + span.2 ≤ start := by
  have hswitches : Switches (Timeline.pick Event.isOn
      ((captured marks ++ spanEvents spans).mergeSort Event.before)) := by
    apply (sorted_mergeSort _).filterMap
    intro a b hab a' ha b' hb
    obtain ⟨first, hfirst, rfl⟩ := Option.map_eq_some_iff.mp ha
    obtain ⟨second, hsecond, rfl⟩ := Option.map_eq_some_iff.mp hb
    have hrank : ∀ {event : Event F} {on : Bool}, event.isOn = some on →
        event.rank = if on then 4 else 3 := by
      intro event on hon
      cases event with
      | noise switched =>
        obtain rfl := Option.some.inj hon
        cases switched <;> rfl
      | _ => cases hon
    rw [Event.before_iff, hrank hfirst, hrank hsecond] at hab
    refine hab.imp_right fun h ↦ ⟨h.1, ?_⟩
    rintro rfl
    cases second with
    | true => rfl
    | false => exact absurd h.2 (by decide)
  rw [Timeline.latest_pick, latest_switches hswitches]
  constructor
  · rintro ⟨start, hstart, hle, hstops⟩
    obtain ⟨span, hspan, rfl⟩ := mem_switches.mp hstart
    exact ⟨span.1, List.mem_map_of_mem hspan, hle,
      fun other hother ↦ hstops _ (mem_switches.mpr ⟨other, hother, rfl⟩)⟩
  · rintro ⟨start, hstart, hle, hstops⟩
    obtain ⟨span, hspan, rfl⟩ := List.mem_map.mp hstart
    refine ⟨span.1, mem_switches.mpr ⟨span, hspan, rfl⟩, hle, fun stop hstop ↦ ?_⟩
    obtain ⟨other, hother, rfl⟩ := mem_switches.mp hstop
    exact hstops other hother

/-- Sorting in the noise events does not change what the captures say. -/
theorem latest_sorted {β : Type} {select : Event F → Option β} {marks : List (Mark F)}
    {spans : List (ℕ × ℕ)} {held : β} {at₀ : ℕ} (hnone : ∀ on, select (.noise on) = none)
    (hascending : (Timeline.pick select (captured marks)).Pairwise fun a b ↦ a.1 < b.1) :
    Timeline.latest select at₀ held ((captured marks ++ spanEvents spans).mergeSort Event.before) =
      Timeline.latest select at₀ held (captured marks) := by
  have hsilent : Timeline.pick select (spanEvents spans) = [] := by
    rw [Timeline.pick, List.filterMap_eq_nil_iff]
    intro event hevent
    obtain ⟨span, -, hevent⟩ := List.mem_flatMap.mp hevent
    rcases List.mem_cons.mp hevent with rfl | hevent
    · rw [hnone]
      rfl
    · rw [List.mem_singleton.mp hevent, hnone]
      rfl
  have hpick : (Timeline.pick select (captured marks ++ spanEvents spans)).Pairwise
      fun a b ↦ a.1 < b.1 := by
    rw [Timeline.pick_append, hsilent, List.append_nil]
    exact hascending
  rw [Timeline.latest_of_perm (List.mergeSort_perm _ _) (ordered_mergeSort _) hpick,
    Timeline.latest_append, Timeline.latest_pick select at₀ _ (spanEvents spans), hsilent]
  rfl

variable [Zero F] {session : Session α F}

/-- What is heard of a session in terms of its calls. -/
structure Heard (session : Session α F) (reader : CollectionReader α F) (history : History α F) :
    Prop where
  samples : ∀ lane < session.centers.length,
    history.heard lane = session.calls.flatMap (Call.block lane)
  gaps : ∀ at₀, Timeline.sumAt ReadChunk.missing at₀ history.played =
    if at₀ = 0 then 0 else Timeline.sumAt Call.missing at₀ (stamped session.calls)
  centers : ∀ at₀, Timeline.latest ReadChunk.centers at₀ reader.centers history.played =
    Timeline.latest Call.centers at₀ session.centers (stamped session.calls)
  offsets : ∀ at₀, Timeline.latest ReadChunk.lags at₀ none history.played =
    Timeline.latest Call.lags at₀ none (stamped session.calls)
  noise : ∀ at₀, Timeline.latest ReadChunk.isOn at₀ false history.played = true ↔
    ∃ start ∈ (spans session.calls).map Prod.fst, start ≤ at₀ ∧
      ∀ span ∈ spans session.calls, span.1 + span.2 ≤ at₀ → span.1 + span.2 ≤ start

theorem heard_of_counted (hcounted : Counted [] session.calls) :
    ∃ writer reader,
      (CollectionWriter.create session.centers session.now).run session.calls = .ok writer ∧
      CollectionReader.openFiles writer.finalize = .ok reader ∧
      ∀ out : List (List α), out.length = session.centers.length → ∀ max : ℕ → ℕ, (∀ i, 1 ≤ max i) →
        (∃ fuel history, reader.playback out max fuel = some history) ∧
        ∀ fuel history, reader.playback out max fuel = some history → session.Heard reader history := by
  obtain ⟨writer, hrun, hrecorded⟩ :=
    (Recorded.create session.centers session.now).run session.fits hcounted
  rw [List.nil_append] at hrecorded
  obtain ⟨mark, older, reader, hmarks, hopen, hreading, hposition, -, hlanes, ⟨first, hfirst, hcenters⟩,
    hevents⟩ := hrecorded.open session.lanes_pos session.fits session.inside
  refine ⟨writer, reader, hrun, hopen, fun out hout max hmax ↦ ?_⟩
  have hout : out.length = reader.lanes.length := by
    rw [hout, hlanes, List.length_map, List.length_range]
  refine ⟨hreading.playback_ends hout hmax, fun fuel history hplay ↦ ?_⟩
  obtain ⟨hpick, hheard⟩ := hreading.playback_sound hout hmax hplay
  rw [hposition] at hpick
  have hpicked : Timeline.pick ReadChunk.event (History.played history) =
      (captured (mark :: older).reverse ++ spanEvents (spans session.calls)).mergeSort Event.before :=
    hpick.trans hevents
  refine ⟨fun lane hlane ↦ ?_, fun at₀ ↦ ?_, fun at₀ ↦ ?_, fun at₀ ↦ ?_, fun at₀ ↦ ?_⟩
  · have hfiles : reader.lanes[lane]? = some (openedLane session.calls (mark :: older) lane) := by
      rw [hlanes, List.getElem?_map, List.getElem?_range hlane, Option.map_some]
    rw [hheard lane _ hfiles, hposition, List.drop_zero]
    rfl
  · rw [sumAt_event, hpicked, Timeline.sumAt_perm _ _ (List.mergeSort_perm _ _), Timeline.sumAt_append,
      hmarks.sumAt_captured at₀, Nat.add_eq_left]
    apply Timeline.sumAt_eq_zero
    intro event hevent _
    obtain ⟨span, -, hevent⟩ := List.mem_flatMap.mp hevent
    rcases List.mem_cons.mp hevent with rfl | hevent
    · rfl
    · rw [List.mem_singleton.mp hevent]
      rfl
  · rw [latest_event ReadChunk.centers_eq, hpicked, hcenters,
      latest_sorted (fun _ ↦ rfl) hmarks.pick_centers_ascending, hmarks.latest_centers_captured hfirst]
  · rw [latest_event ReadChunk.lags_eq, hpicked,
      latest_sorted (fun _ ↦ rfl) hmarks.pick_lags_ascending, hmarks.latest_lags_captured]
  · rw [latest_event ReadChunk.isOn_eq, hpicked, latest_isOn_sorted]

theorem playable_of_playsBack (hplaysBack : session.PlaysBack) : session.Playable := by
  obtain ⟨writer, reader, hrun, hopen, hplays⟩ := hplaysBack
  have hcounted := (Recorded.create session.centers session.now).counted_of_run session.fits hrun
  obtain ⟨writer', reader', hrun', hopen', hheard⟩ := heard_of_counted hcounted
  obtain rfl : writer = writer' := Except.ok.inj (hrun.symm.trans hrun')
  obtain rfl : reader = reader' := Except.ok.inj (hopen.symm.trans hopen')
  have hout : (List.replicate session.centers.length ([] : List α)).length =
      session.centers.length := List.length_replicate
  obtain ⟨⟨fuel, history, hplay⟩, hfaithful⟩ := hplays _ hout (fun _ ↦ 1) fun _ ↦ Nat.le_refl 1
  have hfaithful := hfaithful fuel history hplay
  have hheard := (hheard _ hout (fun _ ↦ 1) fun _ ↦ Nat.le_refl 1).2 fuel history hplay
  refine ⟨hcounted, ?_, ?_⟩
  · intro call hcall hat
    have hzero := (hfaithful.gaps 0).symm.trans (hheard.gaps 0)
    rw [if_pos rfl, Timeline.sumAt, List.sum_eq_zero_iff_forall_eq_nat] at hzero
    have hcall := hzero _ (List.mem_map_of_mem hcall)
    rwa [if_pos hat] at hcall
  · intro span hspan hempty hbefore
    apply (hfaithful.noise span.1 hbefore).mp
    apply (hheard.noise span.1).mpr
    exact ⟨span.1, List.mem_map_of_mem hspan, Nat.le_refl _, fun _ _ hended ↦ hended⟩

/-- A session plays back as it was recorded exactly if none of its sums is past 64 bits, nothing is missing
before its first sample and no empty noise span stands free. -/
theorem playsBack_iff_playable (session : Session α F) : session.PlaysBack ↔ session.Playable := by
  constructor
  · exact playable_of_playsBack
  · rintro ⟨hcounted, hgap, hcovered⟩
    obtain ⟨writer, reader, hrun, hopen, hplays⟩ := heard_of_counted hcounted
    refine ⟨writer, reader, hrun, hopen, fun out hout max hmax ↦ ?_⟩
    obtain ⟨hends, hheard⟩ := hplays out hout max hmax
    refine ⟨hends, fun fuel history hplay ↦ ?_⟩
    have hheard := hheard fuel history hplay
    refine ⟨hheard.samples, fun at₀ ↦ ?_, hheard.centers, hheard.offsets, fun at₀ hat ↦ ?_⟩
    · rw [hheard.gaps at₀]
      split_ifs with hzero
      · symm
        apply Timeline.sumAt_eq_zero
        intro call hcall hstands
        exact hgap call hcall (hstands.trans hzero)
      · rfl
    · rw [hheard.noise at₀, spans_iff session.disjoint hcovered hat]

/-- Two samples of one lane, with an empty noise span between. -/
def emptyBetween : Session ℕ ℕ where
  centers := [100]
  now := "now"
  calls := [.write [[1, 2]], .noise 1 0]
  lanes_pos := by decide
  fits := by simp [Call.Fits]
  inside := by decide
  disjoint := List.pairwise_singleton _ _

/-- Two samples of one lane behind a gap. -/
def gapFirst : Session ℕ ℕ where
  centers := [100]
  now := "now"
  calls := [.gap 5, .write [[1, 2]]]
  lanes_pos := by decide
  fits := by simp [Call.Fits]
  inside := by decide
  disjoint := List.Pairwise.nil

theorem empty_span_and_leading_gap : ¬emptyBetween.PlaysBack ∧ ¬gapFirst.PlaysBack := by
  constructor
  · intro hplays
    obtain ⟨-, -, hcovered⟩ := playable_of_playsBack hplays
    obtain ⟨span, hspan, hin⟩ := hcovered (1, 0) (by decide) rfl (by decide)
    obtain rfl := List.mem_singleton.mp hspan
    exact absurd hin.2 (by decide)
  · intro hplays
    obtain ⟨-, hgap, -⟩ := playable_of_playsBack hplays
    exact absurd (hgap (0, .gap 5) List.mem_cons_self rfl) (by decide)

end Session

end Sdrmm.Collection
