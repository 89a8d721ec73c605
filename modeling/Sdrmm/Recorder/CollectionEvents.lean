import Mathlib.Data.List.Induction
import Mathlib.Data.Nat.Find
import Sdrmm.Recorder.CollectionWritten

/-!
# The events of a recording

The captures of the lanes give back what the marks say, and sorting the events keeps, for each kind of
event that stands at a position at most once, the order of the marks.  Of the noise events a position may
have several, and those that switch the noise off come first.
-/

namespace Sdrmm.Collection

open Sdrmm.Lib

variable {α F : Type}

namespace Event

def missing : Event F → ℕ
  | .gap missing => missing
  | _ => 0

def centers : Event F → Option (List F)
  | .retuned centers => some centers
  | _ => none

def lags : Event F → Option (Option (List ℤ))
  | .offsets shifts => some (some shifts)
  | _ => none

def isOn : Event F → Option Bool
  | .noise on => some on
  | _ => none

end Event

/-! ## From captures to events -/

theorem gapBefore_mark {mark previous : Mark F} (hmissing : previous.missing ≤ mark.missing) :
    gapBefore (mark.capture 0) (mark.start + previous.missing) =
      .ok (mark.missing - previous.missing) := by
  simp only [gapBefore, Mark.capture, Mark.globalIndex]
  split_ifs with hlost
  · simp only
    rw [if_pos (by omega)]
    congr 1
    omega
  · simp only
    congr 1
    omega

/-- The marks from the oldest to the newest. -/
def Ascending (marks : List (Mark F)) : Prop :=
  marks.Pairwise fun earlier later ↦ earlier.start < later.start ∧ earlier.missing ≤ later.missing

variable {centers : List F} {calls : List (Call α F)} {mark : Mark F} {older : List (Mark F)}

theorem Marks.ascending (hmarks : Marks centers calls mark older) :
    Ascending (mark :: older).reverse := List.pairwise_reverse.mpr hmarks.ordered

theorem Marks.exists_first (hmarks : Marks centers calls mark older) :
    ∃ first marks, (mark :: older).reverse = first :: marks ∧ first.start = 0 ∧
      (mark :: older).getLast? = some first := by
  cases hreverse : (mark :: older).reverse with
  | nil => exact absurd (List.reverse_eq_nil_iff.mp hreverse) (List.cons_ne_nil _ _)
  | cons first marks =>
    have hlast : (mark :: older).getLast? = some first := by
      rw [← List.head?_reverse, hreverse]
      rfl
    exact ⟨first, marks, rfl, hmarks.oldest first hlast, hlast⟩

section Captures

variable [BEq F]

/-- The events of a mark behind another. -/
def Mark.eventsAfter (mark previous : Mark F) : List (ℕ × Event F) :=
  (if previous.missing < mark.missing then [(mark.start, .gap (mark.missing - previous.missing))]
    else []) ++
  (if mark.datetime.isSome || mark.centers[0]? != previous.centers[0]? then
    [(mark.start, .retuned mark.centers)] else []) ++
  mark.offsets.toList.map fun shifts ↦ (mark.start, .offsets shifts)

/-- The events of all marks but the first, from the oldest to the newest. -/
def markEvents : List (Mark F) → List (ℕ × Event F)
  | previous :: mark :: marks => mark.eventsAfter previous ++ markEvents (mark :: marks)
  | _ => []

theorem markEvents_concat (marks : List (Mark F)) (previous mark : Mark F) :
    markEvents (marks ++ [previous, mark]) =
      markEvents (marks ++ [previous]) ++ mark.eventsAfter previous := by
  induction marks with
  | nil => simp only [List.nil_append, markEvents, List.append_nil]
  | cons first marks ih =>
    cases marks with
    | nil => simp only [List.cons_append, List.nil_append, markEvents, List.append_nil]
    | cons second marks =>
      simp only [List.cons_append, markEvents, List.append_assoc] at ih ⊢
      rw [ih]

theorem markEvents_reverse (mark previous : Mark F) (older : List (Mark F)) :
    markEvents (mark :: previous :: older).reverse =
      markEvents (previous :: older).reverse ++ mark.eventsAfter previous := by
  rw [List.reverse_cons, List.reverse_cons, List.append_assoc, List.singleton_append,
    markEvents_concat]

theorem pairEvents_marks [Zero F] {lanes : List (SigmfReader α F)} {all : List (Mark F)}
    (hlanes : ∀ index mark, all[index]? = some mark → centersAt lanes index = mark.centers)
    (hcounted : ∀ mark ∈ all, mark.start + mark.missing < 2 ^ 64) {front marks : List (Mark F)}
    {previous : Mark F} (hall : all = front ++ previous :: marks)
    (hascending : Ascending (previous :: marks)) :
    pairEvents lanes (front.length + 1) (previous.capture 0) (previous.start + previous.missing)
      (marks.map fun mark ↦ mark.capture 0) = .ok (markEvents (previous :: marks)) := by
  induction marks generalizing front previous with
  | nil => rfl
  | cons mark marks ih =>
    obtain ⟨hnext, hrest⟩ := List.pairwise_cons.mp hascending
    obtain ⟨hstart, hmissing⟩ := hnext mark List.mem_cons_self
    have hroom := hcounted mark (by rw [hall]; simp)
    have hdelta : checkedSub (mark.capture 0).sampleStart (previous.capture 0).sampleStart =
        .ok (mark.start - previous.start) := if_pos (Nat.le_of_lt hstart)
    have hexpected : checkedAdd (previous.start + previous.missing) (mark.start - previous.start) =
        .ok (mark.start + previous.missing) := by
      rw [checkedAdd, if_pos (by omega)]
      congr 1
      omega
    have hglobal : checkedAdd (mark.start + previous.missing) (mark.missing - previous.missing) =
        .ok (mark.start + mark.missing) := by
      rw [checkedAdd, if_pos (by omega)]
      congr 1
      omega
    have hsplit : all = (front ++ [previous]) ++ mark :: marks := by
      rw [hall, List.append_assoc]
      rfl
    have hmore := ih hsplit hrest
    have hcenters := hlanes (front.length + 1) mark (by
      rw [hall, List.getElem?_append_right (Nat.le_add_right _ _), Nat.add_sub_cancel_left]
      rfl)
    rw [List.length_append, List.length_singleton] at hmore
    rw [List.map_cons, pairEvents, hdelta, ok_bind, hexpected, ok_bind, gapBefore_mark hmissing, ok_bind,
      hglobal, ok_bind, hmore, ok_bind, hcenters]
    simp only [markEvents, Mark.eventsAfter, Mark.capture, Nat.sub_pos_iff_lt]
    rfl

/-! ## What the events say -/

theorem pick_centers_eventsAfter (mark previous : Mark F) :
    Timeline.pick Event.centers (mark.eventsAfter previous) =
      if mark.datetime.isSome || mark.centers[0]? != previous.centers[0]? then
        [(mark.start, mark.centers)] else [] := by
  have hlags : Timeline.pick Event.centers
      (mark.offsets.toList.map fun shifts ↦ (mark.start, (.offsets shifts : Event F))) = [] := by
    cases mark.offsets with
    | none => rfl
    | some shifts => rfl
  rw [Mark.eventsAfter, Timeline.pick_append, Timeline.pick_append, hlags, List.append_nil]
  split_ifs <;> rfl

theorem pick_lags_eventsAfter (mark previous : Mark F) :
    Timeline.pick Event.lags (mark.eventsAfter previous) =
      mark.offsets.toList.map fun shifts ↦ (mark.start, some shifts) := by
  have hlags : Timeline.pick Event.lags
      (mark.offsets.toList.map fun shifts ↦ (mark.start, (.offsets shifts : Event F))) =
      mark.offsets.toList.map fun shifts ↦ (mark.start, some shifts) := by
    cases mark.offsets with
    | none => rfl
    | some shifts => rfl
  rw [Mark.eventsAfter, Timeline.pick_append, Timeline.pick_append, hlags]
  split_ifs <;> rfl

theorem sumAt_eventsAfter (mark previous : Mark F) (at₀ : ℕ) :
    Timeline.sumAt Event.missing at₀ (mark.eventsAfter previous) =
      if mark.start = at₀ then mark.missing - previous.missing else 0 := by
  have hlags : Timeline.sumAt Event.missing at₀
      (mark.offsets.toList.map fun shifts ↦ (mark.start, (.offsets shifts : Event F))) = 0 := by
    apply Timeline.sumAt_eq_zero
    intro event hevent _
    obtain ⟨shifts, -, rfl⟩ := List.mem_map.mp hevent
    rfl
  rw [Mark.eventsAfter, Timeline.sumAt_append, Timeline.sumAt_append, hlags]
  split_ifs <;> simp [Timeline.sumAt, Event.missing] <;> omega

theorem sumAt_markEvents (at₀ : ℕ) (mark : Mark F) (older : List (Mark F)) :
    Timeline.sumAt Event.missing at₀ (markEvents (mark :: older).reverse) = missingAt at₀ mark older := by
  induction older generalizing mark with
  | nil => rfl
  | cons previous older ih =>
    rw [markEvents_reverse, Timeline.sumAt_append, ih, sumAt_eventsAfter, missingAt, Nat.add_comm]

/-- Every event of the marks stands at a mark behind the first. -/
theorem exists_of_mem_markEvents {first : Mark F} {marks : List (Mark F)} {event : ℕ × Event F}
    (hevent : event ∈ markEvents (first :: marks)) : ∃ mark ∈ marks, event.1 = mark.start := by
  induction marks generalizing first with
  | nil => cases hevent
  | cons mark marks ih =>
    rw [markEvents, List.mem_append] at hevent
    rcases hevent with hevent | hevent
    · refine ⟨mark, List.mem_cons_self, ?_⟩
      simp only [Mark.eventsAfter, List.mem_append, List.mem_map, List.mem_ite_nil_right,
        List.mem_singleton] at hevent
      rcases hevent with (⟨-, rfl⟩ | ⟨-, rfl⟩) | ⟨shifts, -, rfl⟩
      · rfl
      · rfl
      · rfl
    · obtain ⟨other, hother, hat⟩ := ih hevent
      exact ⟨other, List.mem_cons_of_mem _ hother, hat⟩

theorem latest_centers_markEvents {mark : Mark F} {older : List (Mark F)}
    (hordered : (mark :: older).Pairwise fun later earlier ↦ earlier.start < later.start)
    (hcarried : Carried (mark :: older)) {at₀ : ℕ} {held : List F}
    (hheld : ∀ first, (mark :: older).getLast? = some first → first.start ≤ at₀ ∧ held = first.centers) :
    Timeline.latest Event.centers at₀ held (markEvents (mark :: older).reverse) =
      centersHeld at₀ (mark :: older) := by
  induction older generalizing mark with
  | nil =>
    obtain ⟨hstart, rfl⟩ := hheld mark rfl
    exact (if_pos hstart).symm
  | cons previous older ih =>
    obtain ⟨hnewest, hordered⟩ := List.pairwise_cons.mp hordered
    rw [List.getLast?_cons_cons] at hheld
    rw [markEvents_reverse, Timeline.latest_append, ih hordered hcarried.2 hheld, Timeline.latest_pick,
      pick_centers_eventsAfter]
    split_ifs with hnew
    · rfl
    · have hsame : mark.centers = previous.centers := by
        apply hcarried.1
        cases hdatetime : mark.datetime with
        | none => rfl
        | some time => exact absurd (by rw [hdatetime]; rfl) hnew
      have hbefore := hnewest previous List.mem_cons_self
      simp only [centersHeld, List.foldr_cons, hsame, Timeline.latest, List.foldl_nil]
      split_ifs
      · rfl
      · rfl
      · omega
      · rfl

theorem latest_lags_markEvents {mark : Mark F} {older : List (Mark F)} {at₀ : ℕ}
    {held : Option (List ℤ)} (hheld : ∀ first, (mark :: older).getLast? = some first →
      held = if first.start ≤ at₀ then first.offsets else none) :
    Timeline.latest Event.lags at₀ held (markEvents (mark :: older).reverse) =
      offsetsHeld at₀ (mark :: older) := by
  induction older generalizing mark with
  | nil =>
    rw [hheld mark rfl]
    simp only [offsetsHeld, List.foldr_cons, List.foldr_nil, Option.or_none]
    rfl
  | cons previous older ih =>
    rw [List.getLast?_cons_cons] at hheld
    rw [markEvents_reverse, Timeline.latest_append, ih hheld, Timeline.latest_pick, pick_lags_eventsAfter]
    have hcons : offsetsHeld at₀ (mark :: previous :: older) =
        if mark.start ≤ at₀ then mark.offsets.or (offsetsHeld at₀ (previous :: older))
        else offsetsHeld at₀ (previous :: older) := rfl
    rw [hcons]
    cases mark.offsets with
    | none =>
      rw [Option.none_or, ite_self]
      rfl
    | some shifts => rfl

/-- No two events of one kind stand at one position. -/
theorem pick_markEvents_ascending {β : Type} {select : Event F → Option β}
    (hone : ∀ mark previous : Mark F,
      (Timeline.pick select (mark.eventsAfter previous)).length ≤ 1) {first : Mark F}
    {marks : List (Mark F)} (hascending : Ascending (first :: marks)) :
    (Timeline.pick select (markEvents (first :: marks))).Pairwise fun a b ↦ a.1 < b.1 := by
  induction marks generalizing first with
  | nil => exact List.Pairwise.nil
  | cons mark marks ih =>
    obtain ⟨-, hrest⟩ := List.pairwise_cons.mp hascending
    rw [markEvents, Timeline.pick_append]
    apply List.pairwise_append.mpr
    refine ⟨?_, ih hrest, ?_⟩
    · have hlength := hone mark first
      match hpick : Timeline.pick select (mark.eventsAfter first) with
      | [] => exact List.Pairwise.nil
      | [_] => exact List.pairwise_singleton _ _
      | _ :: _ :: _ => rw [hpick] at hlength; simp at hlength
    · intro a ha b hb
      obtain ⟨early, hearly, -⟩ := Timeline.mem_pick.mp ha
      obtain ⟨late, hlate, -⟩ := Timeline.mem_pick.mp hb
      obtain ⟨other, hother, hb⟩ := exists_of_mem_markEvents hlate
      have ha : a.1 = mark.start := by
        have hsingle : (a.1, early) ∈ markEvents [first, mark] := by
          rw [markEvents, List.mem_append]
          exact .inl hearly
        obtain ⟨same, hsame, ha⟩ := exists_of_mem_markEvents hsingle
        rw [← List.mem_singleton.mp hsame]
        exact ha
      rw [ha, show b.1 = other.start from hb]
      exact ((List.pairwise_cons.mp hrest).1 other hother).1

/-- The events of all captures, from the oldest mark to the newest. -/
def captured : List (Mark F) → List (ℕ × Event F)
  | [] => []
  | first :: marks =>
      (first.offsets.toList.map fun shifts ↦ (first.start, .offsets shifts)) ++
        markEvents (first :: marks)

theorem captureEvents_marks [Zero F] {lanes : List (SigmfReader α F)} {marks : List (Mark F)}
    (hlanes : ∀ index mark, marks[index]? = some mark → centersAt lanes index = mark.centers)
    (hcounted : ∀ mark ∈ marks, mark.start + mark.missing < 2 ^ 64) (hascending : Ascending marks) :
    captureEvents lanes (marks.map fun mark ↦ mark.capture 0) = .ok (captured marks) := by
  cases marks with
  | nil => rfl
  | cons first marks =>
    have hglobal : (first.capture 0).globalIndex.getD (first.capture 0).sampleStart =
        first.start + first.missing := by
      simp only [Mark.capture, Mark.globalIndex]
      split_ifs with hmissing
      · rfl
      · rw [Nat.eq_zero_of_not_pos hmissing]
        rfl
    have hall : first :: marks = [] ++ first :: marks := rfl
    have hpairs := pairEvents_marks hlanes hcounted hall hascending
    rw [List.length_nil, Nat.zero_add] at hpairs
    rw [List.map_cons, captureEvents, hglobal, hpairs, ok_bind]
    rfl

/-- What is missing at a position, by the events. -/
theorem Marks.sumAt_captured (hmarks : Marks centers calls mark older) (at₀ : ℕ) :
    Timeline.sumAt Event.missing at₀ (captured (mark :: older).reverse) =
      if at₀ = 0 then 0 else Timeline.sumAt Call.missing at₀ (stamped calls) := by
  obtain ⟨first, marks, hreverse, hstart, -⟩ := hmarks.exists_first
  have hlags : Timeline.sumAt Event.missing at₀
      (first.offsets.toList.map fun shifts ↦ (first.start, (.offsets shifts : Event F))) = 0 := by
    apply Timeline.sumAt_eq_zero
    intro event hevent _
    obtain ⟨shifts, -, rfl⟩ := List.mem_map.mp hevent
    rfl
  rw [hreverse, captured, Timeline.sumAt_append, hlags, Nat.zero_add]
  split_ifs with hzero
  · -- a gap stands at a mark behind the first, and so not at the first sample
    apply Timeline.sumAt_eq_zero
    intro event hevent hat
    obtain ⟨other, hother, hstands⟩ := exists_of_mem_markEvents hevent
    have hascending := hmarks.ascending
    rw [hreverse] at hascending
    have hbehind := ((List.pairwise_cons.mp hascending).1 other hother).1
    omega
  · rw [← hreverse, sumAt_markEvents, hmarks.gaps at₀ (Nat.pos_of_ne_zero hzero)]

theorem Marks.latest_centers_captured (hmarks : Marks centers calls mark older) {first : Mark F}
    (hfirst : (mark :: older).reverse.head? = some first) (at₀ : ℕ) :
    Timeline.latest Event.centers at₀ first.centers (captured (mark :: older).reverse) =
      Timeline.latest Call.centers at₀ centers (stamped calls) := by
  obtain ⟨first', marks, hreverse, hstart, hlast⟩ := hmarks.exists_first
  obtain rfl : first' = first := by
    rw [hreverse] at hfirst
    exact Option.some.inj hfirst
  have hlags : Timeline.latest Event.centers at₀ first'.centers
      (first'.offsets.toList.map fun shifts ↦ (first'.start, (.offsets shifts : Event F))) =
      first'.centers := by
    rw [Timeline.latest_pick]
    cases first'.offsets with
    | none => rfl
    | some shifts => rfl
  rw [hreverse, captured, Timeline.latest_append, hlags, ← hreverse, latest_centers_markEvents
    (hmarks.ordered.imp fun h ↦ h.1) hmarks.carried, hmarks.centersHeld at₀]
  intro other hother
  obtain rfl : first' = other := Option.some.inj (hlast.symm.trans hother)
  exact ⟨by omega, rfl⟩

theorem Marks.latest_lags_captured (hmarks : Marks centers calls mark older) (at₀ : ℕ) :
    Timeline.latest Event.lags at₀ none (captured (mark :: older).reverse) =
      Timeline.latest Call.lags at₀ none (stamped calls) := by
  obtain ⟨first, marks, hreverse, hstart, hlast⟩ := hmarks.exists_first
  rw [hreverse, captured, Timeline.latest_append, ← hreverse, latest_lags_markEvents,
    hmarks.offsetsHeld at₀]
  intro other hother
  obtain rfl : first = other := Option.some.inj (hlast.symm.trans hother)
  cases first.offsets with
  | none => exact (ite_self _).symm
  | some shifts => rfl

theorem Marks.pick_centers_ascending (hmarks : Marks centers calls mark older) :
    (Timeline.pick Event.centers (captured (mark :: older).reverse)).Pairwise fun a b ↦ a.1 < b.1 := by
  obtain ⟨first, marks, hreverse, -, -⟩ := hmarks.exists_first
  have hascending := hmarks.ascending
  rw [hreverse] at hascending ⊢
  have hlags : Timeline.pick Event.centers
      (first.offsets.toList.map fun shifts ↦ (first.start, (.offsets shifts : Event F))) = [] := by
    cases first.offsets with
    | none => rfl
    | some shifts => rfl
  rw [captured, Timeline.pick_append, hlags, List.nil_append]
  apply pick_markEvents_ascending _ hascending
  intro mark previous
  rw [pick_centers_eventsAfter]
  split_ifs
  · exact Nat.le_refl 1
  · exact Nat.zero_le 1

theorem Marks.pick_lags_ascending (hmarks : Marks centers calls mark older) :
    (Timeline.pick Event.lags (captured (mark :: older).reverse)).Pairwise fun a b ↦ a.1 < b.1 := by
  obtain ⟨first, marks, hreverse, -, -⟩ := hmarks.exists_first
  have hascending := hmarks.ascending
  rw [hreverse] at hascending ⊢
  have hone : ∀ mark previous : Mark F,
      (Timeline.pick Event.lags (mark.eventsAfter previous)).length ≤ 1 := by
    intro mark previous
    rw [pick_lags_eventsAfter, List.length_map]
    cases mark.offsets with
    | none => exact Nat.zero_le 1
    | some shifts => exact Nat.le_refl 1
  have hmore := pick_markEvents_ascending hone hascending
  rw [captured, Timeline.pick_append]
  cases first.offsets with
  | none => exact hmore
  | some shifts =>
    refine List.pairwise_cons.mpr ⟨fun later hlater ↦ ?_, hmore⟩
    obtain ⟨event, hevent, -⟩ := Timeline.mem_pick.mp hlater
    obtain ⟨other, hother, hat⟩ := exists_of_mem_markEvents hevent
    rw [show later.1 = other.start from hat]
    exact ((List.pairwise_cons.mp hascending).1 other hother).1

/-- Every event of the captures stands within the recording. -/
theorem Marks.le_written_of_mem_captured (hmarks : Marks centers calls mark older)
    {event : ℕ × Event F} (hevent : event ∈ captured (mark :: older).reverse) :
    event.1 ≤ written calls := by
  have hwithin : ∀ other ∈ mark :: older, other.start ≤ written calls := by
    intro other hother
    rcases List.mem_cons.mp hother with rfl | hother
    · exact hmarks.start_le
    · have := ((List.pairwise_cons.mp hmarks.ordered).1 other hother).1
      have := hmarks.start_le
      omega
  obtain ⟨first, marks, hreverse, -, -⟩ := hmarks.exists_first
  have hmem : ∀ other ∈ first :: marks, other.start ≤ written calls := by
    intro other hother
    rw [← hreverse, List.mem_reverse] at hother
    exact hwithin other hother
  rw [hreverse, captured, List.mem_append] at hevent
  rcases hevent with hevent | hevent
  · obtain ⟨shifts, -, rfl⟩ := List.mem_map.mp hevent
    exact hmem first List.mem_cons_self
  · obtain ⟨other, hother, hat⟩ := exists_of_mem_markEvents hevent
    rw [hat]
    exact hmem other (List.mem_cons_of_mem _ hother)

end Captures

/-! ## The order of delivery -/

theorem Event.before_iff {a b : ℕ × Event F} :
    Event.before a b = true ↔ a.1 < b.1 ∨ a.1 = b.1 ∧ a.2.rank ≤ b.2.rank := by
  simp only [before, Bool.or_eq_true, decide_eq_true_eq, Bool.and_eq_true, beq_iff_eq]

theorem sorted_mergeSort (events : List (ℕ × Event F)) :
    (events.mergeSort Event.before).Pairwise fun a b ↦ Event.before a b = true := by
  apply List.pairwise_mergeSort
  · intro a b c hab hbc
    rw [Event.before_iff] at *
    omega
  · intro a b
    rw [Bool.or_eq_true, Event.before_iff, Event.before_iff]
    omega

theorem ordered_mergeSort (events : List (ℕ × Event F)) :
    (events.mergeSort Event.before).Pairwise fun a b ↦ a.1 ≤ b.1 := by
  apply (sorted_mergeSort events).imp
  intro a b hab
  rw [Event.before_iff] at hab
  omega

/-- Switches in the order of delivery: at one position, those to off come first. -/
def Switches (switches : List (ℕ × Bool)) : Prop :=
  switches.Pairwise fun a b ↦ a.1 < b.1 ∨ a.1 = b.1 ∧ (a.2 = true → b.2 = true)

/-- The noise is on where it was switched on at or behind the last switch to off. -/
theorem latest_switches {switches : List (ℕ × Bool)} (hswitches : Switches switches) (at₀ : ℕ) :
    Timeline.latest some at₀ false switches = true ↔
      ∃ start, (start, true) ∈ switches ∧ start ≤ at₀ ∧
        ∀ stop, (stop, false) ∈ switches → stop ≤ at₀ → stop ≤ start := by
  induction switches using List.reverseRecOn with
  | nil => simp [Timeline.latest]
  | append_singleton switches last ih =>
    obtain ⟨hbefore, -, hlast⟩ := List.pairwise_append.mp hswitches
    have hlatest : Timeline.latest some at₀ false (switches ++ [last]) =
        if last.1 ≤ at₀ then last.2 else Timeline.latest some at₀ false switches := by
      rw [Timeline.latest_append]
      rfl
    have hle : ∀ switch ∈ switches, switch.1 < last.1 ∨
        switch.1 = last.1 ∧ (switch.2 = true → last.2 = true) :=
      fun switch hswitch ↦ hlast switch hswitch last List.mem_cons_self
    obtain ⟨position, on⟩ := last
    rw [hlatest]
    split_ifs with hat
    · cases on with
      | true =>
        refine iff_of_true rfl ⟨position, by simp, hat, fun stop hstop _ ↦ ?_⟩
        rcases List.mem_append.mp hstop with hstop | hstop
        · have := hle _ hstop
          omega
        · cases List.mem_singleton.mp hstop
      | false =>
        refine iff_of_false Bool.false_ne_true ?_
        rintro ⟨start, hstart, -, hlatest⟩
        have hstop := hlatest position (by simp) hat
        rcases List.mem_append.mp hstart with hstart | hstart
        · rcases hle _ hstart with hless | ⟨-, himpossible⟩
          · omega
          · cases himpossible rfl
        · cases List.mem_singleton.mp hstart
    · rw [ih hbefore]
      constructor
      · rintro ⟨start, hstart, hle, hstops⟩
        refine ⟨start, List.mem_append_left _ hstart, hle, fun stop hstop hearly ↦ ?_⟩
        rcases List.mem_append.mp hstop with hstop | hstop
        · exact hstops stop hstop hearly
        · cases List.mem_singleton.mp hstop
          exact absurd hearly hat
      · rintro ⟨start, hstart, hearly, hstops⟩
        refine ⟨start, ?_, hearly, fun stop hstop ↦ hstops stop (List.mem_append_left _ hstop)⟩
        rcases List.mem_append.mp hstart with hstart | hstart
        · exact hstart
        · cases List.mem_singleton.mp hstart
          exact absurd hearly hat

/-! ## Noise spans -/

/-- Whether a sample lies in a span. -/
def InSpan (span : ℕ × ℕ) (at₀ : ℕ) : Prop := span.1 ≤ at₀ ∧ at₀ < span.1 + span.2

def Disjoint (spans : List (ℕ × ℕ)) : Prop :=
  spans.Pairwise fun a b ↦ ∀ at₀, ¬(InSpan a at₀ ∧ InSpan b at₀)

/-- Every empty span before the end of the recording lies in a span that is not empty. -/
def EmptyCovered (spans : List (ℕ × ℕ)) (total : ℕ) : Prop :=
  ∀ span ∈ spans, span.2 = 0 → span.1 < total → ∃ other ∈ spans, InSpan other span.1

/-- The starts and ends of the spans, where those that are empty do not stand free, tell which samples lie
in one. -/
theorem spans_iff {spans : List (ℕ × ℕ)} (hdisjoint : Disjoint spans) {total at₀ : ℕ}
    (hcovered : EmptyCovered spans total) (hat : at₀ < total) :
    (∃ span ∈ spans, InSpan span at₀) ↔
      ∃ start ∈ spans.map Prod.fst, start ≤ at₀ ∧
        ∀ span ∈ spans, span.1 + span.2 ≤ at₀ → span.1 + span.2 ≤ start := by
  constructor
  · rintro ⟨span, hspan, hstart, hstop⟩
    -- the last start at or before the sample
    let last := Nat.findGreatest (fun start ↦ start ∈ spans.map Prod.fst) at₀
    have hmem : span.1 ∈ spans.map Prod.fst := List.mem_map_of_mem hspan
    have hlast : last ∈ spans.map Prod.fst :=
      Nat.findGreatest_spec (P := fun start ↦ start ∈ spans.map Prod.fst) hstart hmem
    have hfrom : ∀ other ∈ spans, other.1 ≤ at₀ → other.1 ≤ last :=
      fun other hother hle ↦ Nat.le_findGreatest hle (List.mem_map_of_mem hother)
    refine ⟨last, hlast, Nat.findGreatest_le at₀, fun other hother hended ↦ ?_⟩
    by_cases hempty : other.2 = 0
    · have := hfrom other hother (by omega)
      omega
    · -- a span that is not empty and has ended lies before the one around the sample
      have hsymmetric : Std.Symm fun a b : ℕ × ℕ ↦ ∀ at₀, ¬(InSpan a at₀ ∧ InSpan b at₀) :=
        ⟨fun _ _ h at₀ hboth ↦ h at₀ ⟨hboth.2, hboth.1⟩⟩
      have hne : other ≠ span := by
        rintro rfl
        omega
      have hapart := hdisjoint.forall hother hspan hne (other.1 + other.2 - 1)
      have := hfrom span hspan hstart
      by_contra hbeyond
      apply hapart
      refine ⟨⟨by omega, by omega⟩, ?_, ?_⟩ <;> omega
  · rintro ⟨start, hstart, hle, hstops⟩
    obtain ⟨span, hspan, rfl⟩ := List.mem_map.mp hstart
    by_cases hstop : at₀ < span.1 + span.2
    · exact ⟨span, hspan, hle, hstop⟩
    · have hended := hstops span hspan (Nat.not_lt.mp hstop)
      obtain ⟨other, hother, hfrom, huntil⟩ := hcovered span hspan (by omega) (by omega)
      refine ⟨other, hother, by omega, ?_⟩
      by_contra hover
      have := hstops other hother (Nat.not_lt.mp hover)
      omega

end Sdrmm.Collection
