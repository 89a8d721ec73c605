import Sdrmm.Recorder.Collection

/-!
# What the calls of a writer leave behind

The captures of the lanes differ in their frequencies only, so that they are one list of marks.  A mark
carries all that was missing up to it; what is missing at it is the difference to the mark before.  After
every call the marks say what the calls so far said: what is missing at each position, and which centers
and offsets are in force there.
-/

namespace Sdrmm.Collection

open Sdrmm.Lib

variable {α F : Type}

/-! ## The calls -/

namespace Call

/-- The samples that a call adds to every lane. -/
def length : Call α F → ℕ
  | .write blocks => (blocks.head?.map List.length).getD 0
  | _ => 0

def missing : Call α F → ℕ
  | .gap missing => missing
  | _ => 0

def centers : Call α F → Option (List F)
  | .retuned centers _ => some centers
  | _ => none

def lags : Call α F → Option (Option (List ℤ))
  | .offsets shifts => some (some shifts)
  | _ => none

def span : Call α F → Option (ℕ × ℕ)
  | .noise start count => some (start, count)
  | _ => none

/-- What a call adds to a lane. -/
def block (lane : ℕ) : Call α F → List α
  | .write blocks => blocks[lane]?.getD []
  | _ => []

/-- A call for the right number of lanes, with blocks of equal length. -/
def Fits (lanes : ℕ) : Call α F → Prop
  | .write blocks => blocks.length = lanes ∧ ∀ a ∈ blocks, ∀ b ∈ blocks, a.length = b.length
  | .retuned centers _ => centers.length = lanes
  | .offsets shifts => shifts.length = lanes
  | _ => True

/-- No sum that the call computes is past 64 bits, where so much was written and so much is missing. -/
def Counted (written lost : ℕ) : Call α F → Prop
  | .write blocks => written + (Call.write blocks : Call α F).length < 2 ^ 64
  | .gap missing => missing = 0 ∨ written + (lost + missing) < 2 ^ 64
  | .retuned _ _ => written + lost < 2 ^ 64
  | .offsets _ => written + lost < 2 ^ 64
  | .noise _ _ => True

end Call

def written (calls : List (Call α F)) : ℕ := (calls.map Call.length).sum

def lost (calls : List (Call α F)) : ℕ := (calls.map Call.missing).sum

def spans (calls : List (Call α F)) : List (ℕ × ℕ) := calls.filterMap Call.span

/-- The calls, each with the samples that were written when it was made. -/
def stamped (calls : List (Call α F)) : List (ℕ × Call α F) := Timeline.stamp Call.length 0 calls

theorem written_concat (done : List (Call α F)) (call : Call α F) :
    written (done ++ [call]) = written done + call.length := by
  rw [written, List.map_append, List.sum_append, List.map_singleton, List.sum_singleton, written]

theorem lost_concat (done : List (Call α F)) (call : Call α F) :
    lost (done ++ [call]) = lost done + call.missing := by
  rw [lost, List.map_append, List.sum_append, List.map_singleton, List.sum_singleton, lost]

theorem stamped_concat (done : List (Call α F)) (call : Call α F) :
    stamped (done ++ [call]) = stamped done ++ [(written done, call)] := by
  rw [stamped, Timeline.stamp_append, Nat.zero_add]
  rfl

/-! ## Marks -/

structure Mark (F : Type) where
  start : ℕ
  missing : ℕ
  centers : List F
  datetime : Option String := none
  offsets : Option (List ℤ) := none

namespace Mark

def globalIndex (mark : Mark F) : Option ℕ :=
  if 0 < mark.missing then some (mark.start + mark.missing) else none

/-- The capture of a lane. -/
def capture (mark : Mark F) (lane : ℕ) : SigmfCapture F where
  sampleStart := mark.start
  frequency := mark.centers[lane]?
  datetime := mark.datetime
  globalIndex := mark.globalIndex
  offsets := mark.offsets

end Mark

/-- The centers at a position, from the newest mark to the oldest. -/
def centersHeld (at₀ : ℕ) (marks : List (Mark F)) : List F :=
  marks.foldr (fun mark held ↦ if mark.start ≤ at₀ then mark.centers else held) []

def offsetsHeld (at₀ : ℕ) (marks : List (Mark F)) : Option (List ℤ) :=
  marks.foldr (fun mark held ↦ if mark.start ≤ at₀ then mark.offsets.or held else held) none

/-- What is missing at a position behind the oldest mark. -/
def missingAt (at₀ : ℕ) : Mark F → List (Mark F) → ℕ
  | _, [] => 0
  | mark, previous :: older =>
      (if mark.start = at₀ then mark.missing - previous.missing else 0) + missingAt at₀ previous older

/-- A mark that no retune made has the centers of the mark before. -/
def Carried : List (Mark F) → Prop
  | mark :: previous :: older =>
      (mark.datetime = none → mark.centers = previous.centers) ∧ Carried (previous :: older)
  | _ => True

/-- The marks, the newest first, say what the calls said. -/
structure Marks (centers : List F) (done : List (Call α F)) (mark : Mark F) (older : List (Mark F)) :
    Prop where
  missing : mark.missing = lost done
  start_le : mark.start ≤ written done
  ordered : (mark :: older).Pairwise fun later earlier ↦
    earlier.start < later.start ∧ earlier.missing ≤ later.missing
  oldest : ∀ first, (mark :: older).getLast? = some first → first.start = 0
  lanes : ∀ other ∈ mark :: older, other.centers.length = centers.length
  counted : ∀ other ∈ mark :: older, other.start + other.missing < 2 ^ 64
  carried : Carried (mark :: older)
  gaps : ∀ at₀, 0 < at₀ → missingAt at₀ mark older = Timeline.sumAt Call.missing at₀ (stamped done)
  centersHeld : ∀ at₀, centersHeld at₀ (mark :: older) =
    Timeline.latest Call.centers at₀ centers (stamped done)
  offsetsHeld : ∀ at₀, offsetsHeld at₀ (mark :: older) =
    Timeline.latest Call.lags at₀ none (stamped done)

namespace Marks

variable {centers : List F} {done : List (Call α F)} {mark : Mark F} {older : List (Mark F)}

theorem start (centers : List F) (now : String) :
    Marks centers ([] : List (Call α F)) ⟨0, 0, centers, some now, none⟩ [] where
  missing := rfl
  start_le := Nat.zero_le _
  ordered := List.pairwise_singleton _ _
  oldest first hfirst := by
    obtain rfl := Option.some.inj hfirst
    rfl
  lanes other hother := by rw [List.mem_singleton.mp hother]
  counted other hother := by rw [List.mem_singleton.mp hother]; exact Nat.two_pow_pos 64
  carried := trivial
  gaps _ _ := rfl
  centersHeld at₀ := by
    simp only [Collection.centersHeld, List.foldr_cons, List.foldr_nil, Nat.zero_le, if_true]
    rfl
  offsetsHeld at₀ := by
    simp only [Collection.offsetsHeld, List.foldr_cons, List.foldr_nil, Nat.zero_le, if_true]
    rfl

/-- A call that concerns the marks changes the newest, which stands where the call is made. -/
theorem changed (hmarks : Marks centers done mark older) (hhere : mark.start = written done)
    {call : Call α F} {after : Mark F} (hstart : after.start = mark.start)
    (hmissing : after.missing = mark.missing + call.missing)
    (hcenters : after.centers = call.centers.getD mark.centers)
    (hstamped : after.datetime = none → after.centers = mark.centers ∧ mark.datetime = none)
    (hoffsets : ∀ held, after.offsets.or held = call.lags.getD (mark.offsets.or held))
    (hlanes : after.centers.length = centers.length)
    (hcounted : after.start + after.missing < 2 ^ 64) :
    Marks centers (done ++ [call]) after older where
  missing := by rw [hmissing, hmarks.missing, lost_concat]
  start_le := by rw [hstart, hhere, written_concat]; omega
  ordered := by
    obtain ⟨hnewest, hrest⟩ := List.pairwise_cons.mp hmarks.ordered
    refine List.pairwise_cons.mpr ⟨fun other hother ↦ ?_, hrest⟩
    obtain ⟨hearlier, hless⟩ := hnewest other hother
    rw [hstart, hmissing]
    exact ⟨hearlier, Nat.le_add_right_of_le hless⟩
  oldest first hfirst := by
    cases older with
    | nil =>
      have hafter : after = first := Option.some.inj hfirst
      rw [← hafter, hstart]
      exact hmarks.oldest mark rfl
    | cons previous older =>
      rw [List.getLast?_cons_cons] at hfirst
      exact hmarks.oldest first (by rw [List.getLast?_cons_cons]; exact hfirst)
  lanes := List.forall_mem_cons.mpr ⟨hlanes, (List.forall_mem_cons.mp hmarks.lanes).2⟩
  counted := List.forall_mem_cons.mpr ⟨hcounted, (List.forall_mem_cons.mp hmarks.counted).2⟩
  carried := by
    cases older with
    | nil => trivial
    | cons previous older =>
      refine ⟨fun hnone ↦ ?_, hmarks.carried.2⟩
      obtain ⟨hsame, hbefore⟩ := hstamped hnone
      rw [hsame, hmarks.carried.1 hbefore]
  gaps at₀ hpos := by
    rw [stamped_concat, Timeline.sumAt_append, ← hmarks.gaps at₀ hpos, Timeline.sumAt_cons,
      Timeline.sumAt, List.map_nil, List.sum_nil, ← hhere]
    cases older with
    | nil =>
      have hzero : mark.start = 0 := hmarks.oldest mark rfl
      simp only [missingAt, if_neg (show mark.start ≠ at₀ by omega), Nat.add_zero]
    | cons previous older =>
      obtain ⟨-, hless⟩ := (List.pairwise_cons.mp hmarks.ordered).1 previous List.mem_cons_self
      simp only [missingAt, hstart, hmissing]
      split_ifs
      · omega
      · omega
  centersHeld at₀ := by
    rw [stamped_concat, Timeline.latest_append, ← hmarks.centersHeld at₀, Timeline.latest_cons, ← hhere]
    simp only [Collection.centersHeld, List.foldr_cons, Timeline.latest, List.foldl_nil, hstart,
      hcenters]
    split_ifs
    · rfl
    · rfl
  offsetsHeld at₀ := by
    rw [stamped_concat, Timeline.latest_append, ← hmarks.offsetsHeld at₀, Timeline.latest_cons, ← hhere]
    simp only [Collection.offsetsHeld, List.foldr_cons, Timeline.latest, List.foldl_nil, hstart,
      hoffsets]
    split_ifs
    · rfl
    · rfl

/-- A call that does not concern the marks leaves them as they are. -/
theorem kept (hmarks : Marks centers done mark older) {call : Call α F} (hmissing : call.missing = 0)
    (hcenters : call.centers = none) (hlags : call.lags = none) :
    Marks centers (done ++ [call]) mark older where
  missing := by rw [hmarks.missing, lost_concat, hmissing, Nat.add_zero]
  start_le := by
    rw [written_concat]
    exact Nat.le_add_right_of_le hmarks.start_le
  ordered := hmarks.ordered
  oldest := hmarks.oldest
  lanes := hmarks.lanes
  counted := hmarks.counted
  carried := hmarks.carried
  gaps at₀ hpos := by
    rw [stamped_concat, Timeline.sumAt_append, ← hmarks.gaps at₀ hpos, Timeline.sumAt_cons,
      hmissing, ite_self]
    rfl
  centersHeld at₀ := by
    rw [stamped_concat, Timeline.latest_append, ← hmarks.centersHeld at₀, Timeline.latest_cons, hcenters,
      Option.getD_none, ite_self]
    rfl
  offsetsHeld at₀ := by
    rw [stamped_concat, Timeline.latest_append, ← hmarks.offsetsHeld at₀, Timeline.latest_cons, hlags,
      Option.getD_none, ite_self]
    rfl

/-- A mark that says nothing new may be put where the next call is made. -/
theorem placed (hmarks : Marks centers done mark older) (hbefore : mark.start < written done)
    (hcounted : written done + lost done < 2 ^ 64) :
    Marks centers done ⟨written done, mark.missing, mark.centers, none, none⟩ (mark :: older) where
  missing := hmarks.missing
  start_le := Nat.le_refl _
  ordered := by
    refine List.pairwise_cons.mpr ⟨fun other hother ↦ ?_, hmarks.ordered⟩
    rcases List.mem_cons.mp hother with rfl | hother
    · exact ⟨hbefore, Nat.le_refl _⟩
    · obtain ⟨hearlier, hless⟩ := (List.pairwise_cons.mp hmarks.ordered).1 other hother
      exact ⟨Nat.lt_trans hearlier hbefore, hless⟩
  oldest first hfirst := by
    rw [List.getLast?_cons_cons] at hfirst
    exact hmarks.oldest first hfirst
  lanes := List.forall_mem_cons.mpr ⟨hmarks.lanes mark List.mem_cons_self, hmarks.lanes⟩
  counted := by
    refine List.forall_mem_cons.mpr ⟨?_, hmarks.counted⟩
    rw [hmarks.missing]
    exact hcounted
  carried := ⟨fun _ ↦ rfl, hmarks.carried⟩
  gaps at₀ hpos := by
    rw [missingAt, Nat.sub_self, ite_self, Nat.zero_add]
    exact hmarks.gaps at₀ hpos
  centersHeld at₀ := by
    rw [← hmarks.centersHeld at₀, Collection.centersHeld, List.foldr_cons, Collection.centersHeld,
      List.foldr_cons]
    dsimp only
    split_ifs
    · rfl
    · omega
    · rfl
    · rfl
  offsetsHeld at₀ := by
    rw [← hmarks.offsetsHeld at₀, Collection.offsetsHeld, List.foldr_cons]
    exact ite_self _

/-- The writer of a lane behind the calls. -/
def lane (done : List (Call α F)) (marks : List (Mark F)) (index : ℕ) : SigmfWriter α F where
  data := done.flatMap (Call.block index)
  captures := marks.reverse.map fun mark ↦ mark.capture index
  annotations := (spans done).map fun span ↦ ⟨span.1, span.2, noiseLabel⟩
  samples := written done

/-- The marks with one where the next call is made, and what a change of it is for a lane.  A capture
that is new does not have its global index yet. -/
theorem here (hmarks : Marks centers done mark older) (hcounted : written done + lost done < 2 ^ 64) :
    ∃ newest rest, ∃ known : Option ℕ, Marks centers done newest rest ∧ newest.start = written done ∧
      known.or newest.globalIndex = newest.globalIndex ∧
      ∀ index change, (lane done (mark :: older) index).captureHere change =
        { lane done (newest :: rest) index with
          captures := rest.reverse.map (fun mark ↦ mark.capture index) ++
            [change { newest.capture index with globalIndex := known }] } := by
  have hcaptures : ∀ index, (lane done (mark :: older) index).captures =
      older.reverse.map (fun mark ↦ mark.capture index) ++ [mark.capture index] := by
    intro index
    simp only [lane, List.reverse_cons, List.map_append, List.map_singleton]
  by_cases hstart : mark.start = written done
  · refine ⟨mark, older, mark.globalIndex, hmarks, hstart, Option.or_self, fun index change ↦ ?_⟩
    rw [SigmfWriter.captureHere, hcaptures, List.getLast?_concat]
    have hhere : (some (mark.capture index)).all
        (fun capture ↦ capture.sampleStart != (lane done (mark :: older) index).samples) = false := by
      simp only [Option.all_some, Mark.capture, lane, hstart, bne_self_eq_false]
    rw [hhere, if_neg (by decide), List.modifyLast_concat]
    rfl
  · have hbefore : mark.start < written done := Nat.lt_of_le_of_ne hmarks.start_le hstart
    refine ⟨_, mark :: older, none, hmarks.placed hbefore hcounted, rfl, Option.none_or,
      fun index change ↦ ?_⟩
    rw [SigmfWriter.captureHere, hcaptures, List.getLast?_concat]
    have hnone : (some (mark.capture index)).all
        (fun capture ↦ capture.sampleStart != (lane done (mark :: older) index).samples) = true := by
      simp only [Option.all_some, Mark.capture, lane, bne_iff_ne, ne_eq, hstart, not_false_eq_true]
    rw [hnone, if_pos rfl, List.modifyLast_concat, List.reverse_cons, List.map_append, List.map_singleton]
    rfl

theorem lane_concat (done : List (Call α F)) (call : Call α F) (marks : List (Mark F)) (index : ℕ) :
    lane (done ++ [call]) marks index =
      { lane done marks index with
        data := (lane done marks index).data ++ call.block index
        annotations := (lane done marks index).annotations ++
          call.span.toList.map fun span ↦ ⟨span.1, span.2, noiseLabel⟩
        samples := (lane done marks index).samples + call.length } := by
  simp only [lane, spans, List.flatMap_append, List.flatMap_singleton, List.filterMap_append,
    List.map_append, written_concat, SigmfWriter.mk.injEq, true_and, and_true, List.append_cancel_left_eq]
  cases call with
  | noise start count => rfl
  | _ => rfl

/-- A lane whose newest capture was changed, behind a call that writes nothing else. -/
theorem lane_changed (done : List (Call α F)) {call : Call α F} (hblock : ∀ index, call.block index = [])
    (hspan : call.span = none) (hlength : call.length = 0) (newest after : Mark F)
    (rest : List (Mark F)) (index : ℕ) :
    { lane done (newest :: rest) index with
      captures := rest.reverse.map (fun mark ↦ mark.capture index) ++ [after.capture index] } =
      lane (done ++ [call]) (after :: rest) index := by
  rw [lane_concat, hblock, hspan, hlength]
  simp only [lane, List.append_nil, Option.toList_none, List.map_nil, Nat.add_zero, List.reverse_cons,
    List.map_append, List.map_singleton]

end Marks

/-! ## The writer behind the calls -/

section Lanes

variable {β γ δ : Type}

theorem map_eq_map_range {xs : List β} {g : β → γ} {h : ℕ → γ}
    (hsame : ∀ i x, xs[i]? = some x → g x = h i) : xs.map g = (List.range xs.length).map h := by
  apply List.ext_getElem?
  intro i
  rw [List.getElem?_map, List.getElem?_map]
  by_cases hi : i < xs.length
  · rw [List.getElem?_range hi, List.getElem?_eq_getElem hi, Option.map_some, Option.map_some,
      hsame i _ (List.getElem?_eq_getElem hi)]
  · rw [List.getElem?_eq_none (Nat.not_lt.mp hi),
      List.getElem?_eq_none (by rw [List.length_range]; exact Nat.not_lt.mp hi)]
    rfl

theorem zipWith_eq_map_range {xs : List β} {f : ℕ → δ} {g : δ → β → γ} {h : ℕ → γ}
    (hsame : ∀ i x, xs[i]? = some x → g (f i) x = h i) :
    List.zipWith g ((List.range xs.length).map f) xs = (List.range xs.length).map h := by
  apply List.ext_getElem?
  intro i
  rw [List.getElem?_zipWith, List.getElem?_map, List.getElem?_map]
  by_cases hi : i < xs.length
  · rw [List.getElem?_range hi, List.getElem?_eq_getElem hi]
    exact congrArg some (hsame i _ (List.getElem?_eq_getElem hi))
  · rw [List.getElem?_eq_none (by rw [List.length_range]; exact Nat.not_lt.mp hi)]
    rfl

end Lanes

/-- The writer of a session behind some of its calls. -/
structure Recorded (centers : List F) (done : List (Call α F)) (writer : CollectionWriter α F) :
    Prop where
  lanes : ∃ mark older, Marks centers done mark older ∧
    writer.lanes = (List.range centers.length).map (Marks.lane done (mark :: older))
  samples : writer.samples = written done
  missing : writer.missing = lost done
  written_lt : written done < 2 ^ 64

namespace Recorded

variable {centers : List F} {done : List (Call α F)} {writer : CollectionWriter α F}

theorem create (centers : List F) (now : String) :
    Recorded centers ([] : List (Call α F)) (.create centers now) where
  lanes := by
    refine ⟨_, [], Marks.start centers now, ?_⟩
    apply map_eq_map_range
    intro index center hcenter
    simp only [SigmfWriter.create, Marks.lane, List.reverse_singleton, List.map_singleton, Mark.capture,
      hcenter, Mark.globalIndex, Nat.lt_irrefl, if_false]
    rfl
  samples := rfl
  missing := rfl
  written_lt := Nat.two_pow_pos 64

theorem lanes_length (hrecorded : Recorded centers done writer) :
    writer.lanes.length = centers.length := by
  obtain ⟨mark, older, -, hlanes⟩ := hrecorded.lanes
  rw [hlanes, List.length_map, List.length_range]

theorem checkLanes (hrecorded : Recorded centers done writer) {got : ℕ} (hgot : got = centers.length) :
    writer.checkLanes got = .ok () :=
  if_pos (hgot.trans hrecorded.lanes_length.symm)

theorem globalIndex (hrecorded : Recorded centers done writer)
    (hcounted : written done + lost done < 2 ^ 64) :
    writer.globalIndex =
      .ok (if 0 < lost done then some (written done + lost done) else none) := by
  rw [CollectionWriter.globalIndex, hrecorded.missing, hrecorded.samples]
  split_ifs with hlost
  · rw [checkedAdd, if_pos hcounted]
    rfl
  · rfl

/-- The marks and lanes behind a call that changes the newest capture. -/
theorem changed (hrecorded : Recorded centers done writer) {call : Call α F}
    (hcounted : written done + lost done < 2 ^ 64) (hlength : call.length = 0)
    (hblock : ∀ index, call.block index = []) (hspan : call.span = none)
    (change : ℕ → SigmfCapture F → SigmfCapture F) (after : Mark F → Mark F)
    (hchange : ∀ newest : Mark F, newest.start = written done → newest.missing = lost done →
      newest.centers.length = centers.length → ∀ known : Option ℕ,
      known.or newest.globalIndex = newest.globalIndex →
        (∀ index < centers.length, change index { newest.capture index with globalIndex := known } =
          (after newest).capture index) ∧
        ∀ rest, Marks centers done newest rest → Marks centers (done ++ [call]) (after newest) rest)
    {next : CollectionWriter α F} (hsamples : next.samples = writer.samples)
    (hmissing : next.missing = writer.missing + call.missing)
    (hnext : ∀ mark older, Marks centers done mark older →
      writer.lanes = (List.range centers.length).map (Marks.lane done (mark :: older)) →
      next.lanes = (List.range centers.length).map fun index ↦
        (Marks.lane done (mark :: older) index).captureHere (change index)) :
    Recorded centers (done ++ [call]) next := by
  obtain ⟨mark, older, hmarks, hlanes⟩ := hrecorded.lanes
  obtain ⟨newest, rest, known, hnewest, hstart, hknown, hhere⟩ := hmarks.here hcounted
  obtain ⟨hcapture, hafter⟩ := hchange newest hstart hnewest.missing
    (hnewest.lanes newest List.mem_cons_self) known hknown
  refine ⟨⟨after newest, rest, hafter rest hnewest, ?_⟩, ?_, ?_, ?_⟩
  · rw [hnext mark older hmarks hlanes]
    apply List.map_congr_left
    intro index hindex
    rw [hhere, hcapture index (List.mem_range.mp hindex), Marks.lane_changed done hblock hspan hlength]
  · rw [hsamples, hrecorded.samples, written_concat, hlength, Nat.add_zero]
  · rw [hmissing, hrecorded.missing, lost_concat]
  · rw [written_concat, hlength]
    exact hrecorded.written_lt

theorem step_gap (hrecorded : Recorded centers done writer) {missing : ℕ}
    (hcounted : (Call.gap missing : Call α F).Counted (written done) (lost done)) :
    ∃ next, writer.gap missing = .ok next ∧ Recorded centers (done ++ [.gap missing]) next := by
  rw [CollectionWriter.gap]
  split_ifs with hzero
  · refine ⟨writer, rfl, ?_⟩
    obtain ⟨mark, older, hmarks, hlanes⟩ := hrecorded.lanes
    refine ⟨⟨mark, older, hmarks.kept hzero rfl rfl, ?_⟩, ?_, ?_, ?_⟩
    · rw [hlanes]
      apply List.map_congr_left
      intro index _
      rw [Marks.lane_concat]
      simp only [Call.block, Call.span, Call.length, List.append_nil, Option.toList_none, List.map_nil,
        Nat.add_zero]
    · rw [hrecorded.samples, written_concat]
      rfl
    · rw [hrecorded.missing, lost_concat, Call.missing, hzero, Nat.add_zero]
    · rw [written_concat]
      exact hrecorded.written_lt
  · have hsum : written done + (lost done + missing) < 2 ^ 64 := hcounted.resolve_left hzero
    have hmissing : checkedAdd writer.missing missing = .ok (lost done + missing) := by
      rw [checkedAdd, hrecorded.missing, if_pos (by omega)]
    have hglobal : checkedAdd writer.samples (lost done + missing) =
        .ok (written done + (lost done + missing)) := by
      rw [checkedAdd, hrecorded.samples, if_pos hsum]
    rw [hmissing, ok_bind, hglobal, ok_bind]
    refine ⟨_, rfl, hrecorded.changed (by omega) rfl (fun _ ↦ rfl) rfl
      (fun _ capture ↦ { capture with globalIndex := some (written done + (lost done + missing)) })
      (fun newest ↦ { newest with missing := newest.missing + missing }) ?_ rfl ?_ ?_⟩
    · intro newest hstart hlost hlanes known _
      constructor
      · intro index _
        simp only [Mark.capture, Mark.globalIndex, hstart, hlost]
        rw [if_pos (by omega)]
      · intro rest hmarks
        refine hmarks.changed hstart rfl rfl rfl (fun hnone ↦ ⟨rfl, hnone⟩) (fun _ ↦ rfl) hlanes ?_
        simp only [hstart, hlost]
        exact hsum
    · rw [hrecorded.missing]
      rfl
    · intro mark older _ hlanes
      simp only [hlanes, List.map_map]
      rfl

theorem step_retuned (hrecorded : Recorded centers done writer) {tuned : List F} {at₀ : String}
    (hfits : tuned.length = centers.length) (hcounted : written done + lost done < 2 ^ 64) :
    ∃ next, writer.retuned tuned at₀ = .ok next ∧
      Recorded centers (done ++ [.retuned tuned at₀]) next := by
  rw [CollectionWriter.retuned, hrecorded.checkLanes hfits, ok_bind, hrecorded.globalIndex hcounted,
    ok_bind]
  refine ⟨_, rfl, hrecorded.changed hcounted rfl (fun _ ↦ rfl) rfl
    (fun index capture ↦ { capture with
      frequency := tuned[index]?
      datetime := some at₀
      globalIndex := if 0 < lost done then some (written done + lost done) else none })
    (fun newest ↦ { newest with centers := tuned, datetime := some at₀ }) ?_ rfl rfl ?_⟩
  · intro newest hstart hlost hlanes known _
    constructor
    · intro index _
      simp only [Mark.capture, Mark.globalIndex, hstart, hlost]
    · intro rest hmarks
      refine hmarks.changed hstart rfl rfl rfl (fun hnone ↦ (by cases hnone)) (fun _ ↦ rfl) hfits ?_
      simp only [hstart, hlost]
      exact hcounted
  · intro mark older _ hlanes
    dsimp only
    rw [hlanes, ← hfits]
    apply zipWith_eq_map_range
    intro index center hcenter
    rw [hcenter]

theorem step_offsets (hrecorded : Recorded centers done writer) {shifts : List ℤ}
    (hfits : shifts.length = centers.length) (hcounted : written done + lost done < 2 ^ 64) :
    ∃ next, writer.offsets shifts = .ok next ∧ Recorded centers (done ++ [.offsets shifts]) next := by
  rw [CollectionWriter.offsets, hrecorded.checkLanes hfits, ok_bind, hrecorded.globalIndex hcounted,
    ok_bind]
  refine ⟨_, rfl, hrecorded.changed hcounted rfl (fun _ ↦ rfl) rfl
    (fun _ capture ↦ { capture with
      offsets := some shifts
      globalIndex := capture.globalIndex.or
        (if 0 < lost done then some (written done + lost done) else none) })
    (fun newest ↦ { newest with offsets := some shifts }) ?_ rfl rfl ?_⟩
  · intro newest hstart hlost hlanes known hknown
    constructor
    · intro index _
      simp only [Mark.globalIndex, hstart, hlost] at hknown
      simp only [Mark.capture, Mark.globalIndex, hstart, hlost, hknown]
    · intro rest hmarks
      refine hmarks.changed hstart rfl rfl rfl (fun hnone ↦ ⟨rfl, hnone⟩) (fun _ ↦ rfl) hlanes ?_
      simp only [hstart, hlost]
      exact hcounted
  · intro mark older _ hlanes
    simp only [hlanes, List.map_map]
    rfl

theorem step_noise (hrecorded : Recorded centers done writer) (start count : ℕ) :
    Recorded centers (done ++ [.noise start count]) (writer.noise start count) := by
  obtain ⟨mark, older, hmarks, hlanes⟩ := hrecorded.lanes
  refine ⟨⟨mark, older, hmarks.kept rfl rfl rfl, ?_⟩, ?_, ?_, ?_⟩
  · simp only [CollectionWriter.noise, hlanes, List.map_map]
    apply List.map_congr_left
    intro index _
    rw [Marks.lane_concat]
    simp only [Call.block, Call.length, List.append_nil, Nat.add_zero]
    rfl
  · rw [written_concat]
    exact hrecorded.samples
  · rw [lost_concat]
    exact hrecorded.missing
  · rw [written_concat]
    exact hrecorded.written_lt

theorem step_write (hrecorded : Recorded centers done writer) {blocks : List (List α)}
    (hfits : blocks.length = centers.length) (hequal : ∀ a ∈ blocks, ∀ b ∈ blocks, a.length = b.length)
    (hcounted : written done + (Call.write blocks : Call α F).length < 2 ^ 64) :
    ∃ next, writer.write blocks = .ok next ∧ Recorded centers (done ++ [.write blocks]) next := by
  have hlength : ∀ block ∈ blocks, block.length = (Call.write blocks : Call α F).length := by
    intro block hblock
    cases blocks with
    | nil => cases hblock
    | cons first blocks => exact hequal block hblock first List.mem_cons_self
  have heven : (blocks.any fun block ↦ block.length != (blocks.head?.map List.length).getD 0) = false := by
    rw [List.any_eq_false]
    intro block hblock
    rw [hlength block hblock, Call.length, bne_self_eq_false]
    decide
  have hsamples : checkedAdd writer.samples ((blocks.head?.map List.length).getD 0) =
      .ok (written done + (Call.write blocks : Call α F).length) := by
    rw [hrecorded.samples]
    exact if_pos hcounted
  rw [CollectionWriter.write, hrecorded.checkLanes hfits, ok_bind]
  dsimp only
  rw [heven, if_neg (by decide), hsamples, ok_bind]
  obtain ⟨mark, older, hmarks, hlanes⟩ := hrecorded.lanes
  refine ⟨_, rfl, ⟨mark, older, hmarks.kept rfl rfl rfl, ?_⟩, ?_, ?_, ?_⟩
  · dsimp only
    rw [hlanes, ← hfits]
    apply zipWith_eq_map_range
    intro index block hblock
    rw [Marks.lane_concat, SigmfWriter.writeBlock, hlength block (List.mem_of_getElem? hblock)]
    simp only [Call.block, hblock, Option.getD_some, Call.span, Option.toList_none, List.map_nil,
      List.append_nil]
  · rw [written_concat]
  · rw [lost_concat]
    exact hrecorded.missing
  · rw [written_concat]
    exact hcounted

theorem step (hrecorded : Recorded centers done writer) {call : Call α F}
    (hfits : call.Fits centers.length) (hcounted : call.Counted (written done) (lost done)) :
    ∃ next, writer.step call = .ok next ∧ Recorded centers (done ++ [call]) next := by
  cases call with
  | write blocks => exact hrecorded.step_write hfits.1 hfits.2 hcounted
  | gap missing => exact hrecorded.step_gap hcounted
  | retuned tuned at₀ => exact hrecorded.step_retuned hfits hcounted
  | offsets shifts => exact hrecorded.step_offsets hfits hcounted
  | noise start count => exact ⟨_, rfl, hrecorded.step_noise start count⟩

/-- A call whose sums are past 64 bits has no result. -/
theorem counted_of_step (hrecorded : Recorded centers done writer) {call : Call α F}
    {next : CollectionWriter α F} (hstep : writer.step call = .ok next) :
    call.Counted (written done) (lost done) := by
  have hadd : ∀ {a b : ℕ} {value : ℕ}, checkedAdd a b = .ok value → a + b < 2 ^ 64 ∧ value = a + b := by
    intro a b value hvalue
    rw [checkedAdd] at hvalue
    split_ifs at hvalue with hsum
    exact ⟨hsum, (Except.ok.inj hvalue).symm⟩
  have hbind : ∀ {β γ : Type} {x : Result β} {f : β → Result γ} {result : γ}, (x >>= f) = .ok result →
      ∃ value, x = .ok value ∧ f value = .ok result := by
    intro β γ x f result hresult
    cases x with
    | error failure => cases hresult
    | ok value => exact ⟨value, rfl, hresult⟩
  have hindex : ∀ {index : Option ℕ}, writer.globalIndex = .ok index →
      written done + lost done < 2 ^ 64 := by
    intro index hindex
    rw [CollectionWriter.globalIndex, hrecorded.samples, hrecorded.missing] at hindex
    split_ifs at hindex with hlost
    · cases hsum : checkedAdd (written done) (lost done) with
      | error failure => rw [hsum] at hindex; cases hindex
      | ok value => exact (hadd hsum).1
    · have := hrecorded.written_lt
      omega
  cases call with
  | write blocks =>
    obtain ⟨-, -, hstep⟩ := hbind hstep
    dsimp only at hstep
    split_ifs at hstep
    obtain ⟨_, hsum, -⟩ := hbind hstep
    have := (hadd hsum).1
    rwa [hrecorded.samples] at this
  | gap missing =>
    rw [CollectionWriter.step, CollectionWriter.gap] at hstep
    split_ifs at hstep with hzero
    · exact .inl hzero
    · obtain ⟨_, hmissing, hstep⟩ := hbind hstep
      obtain ⟨_, hglobal, -⟩ := hbind hstep
      have hsum := (hadd hglobal).1
      rw [(hadd hmissing).2, hrecorded.samples, hrecorded.missing] at hsum
      exact .inr hsum
  | retuned tuned at₀ =>
    obtain ⟨-, -, hstep⟩ := hbind hstep
    obtain ⟨_, hglobal, -⟩ := hbind hstep
    exact hindex hglobal
  | offsets shifts =>
    obtain ⟨-, -, hstep⟩ := hbind hstep
    obtain ⟨_, hglobal, -⟩ := hbind hstep
    exact hindex hglobal
  | noise start count => trivial

end Recorded

/-- No sum is past 64 bits in any of the calls. -/
def Counted (done : List (Call α F)) : List (Call α F) → Prop
  | [] => True
  | call :: calls => call.Counted (written done) (lost done) ∧ Counted (done ++ [call]) calls

theorem Recorded.run {centers : List F} {done calls : List (Call α F)} {writer : CollectionWriter α F}
    (hrecorded : Recorded centers done writer) (hfits : ∀ call ∈ calls, call.Fits centers.length)
    (hcounted : Counted done calls) :
    ∃ last, writer.run calls = .ok last ∧ Recorded centers (done ++ calls) last := by
  induction calls generalizing done writer with
  | nil =>
    rw [List.append_nil]
    exact ⟨writer, rfl, hrecorded⟩
  | cons call calls ih =>
    obtain ⟨hfit, hfits⟩ := List.forall_mem_cons.mp hfits
    obtain ⟨next, hstep, hnext⟩ := hrecorded.step hfit hcounted.1
    obtain ⟨last, hrun, hlast⟩ := ih hnext hfits hcounted.2
    refine ⟨last, ?_, ?_⟩
    · rw [CollectionWriter.run, hstep, ok_bind, hrun]
    · rwa [List.append_assoc] at hlast

theorem Recorded.counted_of_run {centers : List F} {done calls : List (Call α F)}
    {writer last : CollectionWriter α F} (hrecorded : Recorded centers done writer)
    (hfits : ∀ call ∈ calls, call.Fits centers.length) (hrun : writer.run calls = .ok last) :
    Counted done calls := by
  induction calls generalizing done writer with
  | nil => trivial
  | cons call calls ih =>
    obtain ⟨hfit, hfits⟩ := List.forall_mem_cons.mp hfits
    cases hstep : writer.step call with
    | error failure =>
      rw [CollectionWriter.run, hstep] at hrun
      cases hrun
    | ok next =>
      have hcounted := hrecorded.counted_of_step hstep
      obtain ⟨next', hstep', hnext⟩ := hrecorded.step hfit hcounted
      obtain rfl : next = next' := Except.ok.inj (hstep.symm.trans hstep')
      rw [CollectionWriter.run, hstep, ok_bind] at hrun
      exact ⟨hcounted, ih hnext hfits hrun⟩

end Sdrmm.Collection
