import Sdrmm.Channels.AcarsReasm

/-!
# ACARS messages that are reassembled

Messages whose blocks arrive in order and in time are each handed out once, however they are
interleaved with each other and with anything else, and whichever blocks but the last are repeated.
The argument follows one message through a run: as long as its last block is missing, its entry
holds the blocks that have arrived (`Holds`) and its deadline is still ahead of those to come.
-/

namespace Sdrmm.Acars

/-- The place of a block in the message `key`, if it belongs there. -/
def placeOf (key : Key) (core : AcarsCore) : Option ℕ :=
  (blockOf core).bind fun block ↦ if block.1 = key then some block.2 else none

def placesOf (key : Key) (pushes : List (AcarsCore × ℚ)) : List ℕ :=
  pushes.filterMap fun p ↦ placeOf key p.1

/-- How the places `0` to `count - 1` of a message arrive once the first `arrived` of them have: each
in its turn, and any but the last again after that. -/
inductive Arrives (count : ℕ) : ℕ → List ℕ → Prop
  | done : Arrives count count []
  | next {place : ℕ} {places : List ℕ} :
      place < count → Arrives count (place + 1) places → Arrives count place (place :: places)
  | again {arrived place : ℕ} {places : List ℕ} :
      place < arrived → place + 1 < count → Arrives count arrived places →
        Arrives count arrived (place :: places)

/-- The blocks of `key` in a run are those of one message with the given texts, the first `arrived` of
which came before: they arrive in order, the last one and no other is final, and each comes less than
the timeout after those before it. -/
structure Message (timeoutSecs : ℚ) (key : Key) (texts : List String) (arrived : ℕ)
    (pushes : List (AcarsCore × ℚ)) : Prop where
  text : ∀ p ∈ pushes, ∀ place ∈ placeOf key p.1, texts[place]? = some p.1.text
  final : ∀ p ∈ pushes, ∀ place ∈ placeOf key p.1,
    p.1.moreToCome = decide (place + 1 < texts.length)
  arrives : Arrives texts.length arrived (placesOf key pushes)
  inTime : pushes.Pairwise fun p q ↦
    (placeOf key p.1).isSome → (placeOf key q.1).isSome → q.2 < p.2 + timeoutSecs

def Reasm.text? : Reasm → Option String
  | complete text => some text
  | _ => none

namespace Reassembler

/-- The texts handed out for the blocks of `key`. -/
def completed (r : Reassembler) (key : Key) (pushes : List (AcarsCore × ℚ)) : List String :=
  (pushes.zip (r.answers pushes)).filterMap fun x ↦
    if (placeOf key x.1.1).isSome then x.2.text? else none

variable {r : Reassembler} {key : Key} {p : AcarsCore × ℚ} {pushes : List (AcarsCore × ℚ)}

theorem completed_cons_of_none (hplace : placeOf key p.1 = none) :
    r.completed key (p :: pushes) = (r.push p.1 p.2).1.completed key pushes := by
  simp [completed, answers, hplace]

theorem completed_cons_of_silent (hsilent : (r.push p.1 p.2).2.text? = none) :
    r.completed key (p :: pushes) = (r.push p.1 p.2).1.completed key pushes := by
  simp [completed, answers, hsilent]

theorem completed_cons_of_text {place : ℕ} {text : String} (hplace : placeOf key p.1 = some place)
    (htext : (r.push p.1 p.2).2.text? = some text) :
    r.completed key (p :: pushes) = text :: (r.push p.1 p.2).1.completed key pushes := by
  simp [completed, answers, hplace, htext]

end Reassembler

theorem placeOf_eq_some {key : Key} {core : AcarsCore} {place : ℕ} :
    placeOf key core = some place ↔ blockOf core = some (key, place) := by
  rw [placeOf, Option.bind_eq_some_iff]
  constructor
  · rintro ⟨⟨found, i⟩, hblock, hfound⟩
    split_ifs at hfound with hkey
    rw [hblock, ← hkey, ← Option.some.inj hfound]
  · intro hblock
    exact ⟨(key, place), hblock, if_pos rfl⟩

theorem placeOf_eq_none {key : Key} {core : AcarsCore} (hdown : key.msgNum ≠ "")
    (hplace : placeOf key core = none) (frag : Fragment) (hfrag : fragment core = some frag) :
    keyOf core frag ≠ key := by
  rintro rfl
  have hnonneg := (fragment_eq_some hfrag).1
  have hblock : blockOf core = some (keyOf core frag, frag.seq.toNat) :=
    blockOf_eq_some.mpr ⟨frag, hfrag, (fragment_downlink hfrag).mpr hdown, rfl,
      (Int.toNat_of_nonneg hnonneg).symm⟩
  rw [placeOf_eq_some.mpr hblock] at hplace
  cases hplace

theorem msgNum_of_placeOf {key : Key} {core : AcarsCore} {place : ℕ}
    (hplace : placeOf key core = some place) : key.msgNum ≠ "" := by
  obtain ⟨frag, hfrag, hdown, rfl, _⟩ := blockOf_eq_some.mp (placeOf_eq_some.mp hplace)
  exact (fragment_downlink hfrag).mp hdown

/-! ## Arrivals -/

theorem Arrives.ne_nil {count arrived : ℕ} {places : List ℕ}
    (harrives : Arrives count arrived places) (hlt : arrived < count) : places ≠ [] := by
  cases harrives with
  | done => exact absurd hlt (lt_irrefl _)
  | next _ _ => exact List.cons_ne_nil _ _
  | again _ _ _ => exact List.cons_ne_nil _ _

theorem Arrives.of_cons {count arrived place : ℕ} {places : List ℕ}
    (harrives : Arrives count arrived (place :: places)) :
    place = arrived ∧ Arrives count (arrived + 1) places ∨
      place < arrived ∧ Arrives count arrived places := by
  generalize hfirst : place :: places = all at harrives
  cases harrives with
  | done => cases hfirst
  | next _ htail =>
    obtain ⟨rfl, rfl⟩ := List.cons.inj hfirst
    exact Or.inl ⟨rfl, htail⟩
  | again hbefore _ htail =>
    obtain ⟨rfl, rfl⟩ := List.cons.inj hfirst
    exact Or.inr ⟨hbefore, htail⟩

/-- Once all have arrived, the last one does not come again. -/
theorem Arrives.not_last {count arrived : ℕ} {places : List ℕ}
    (harrives : Arrives count arrived places) (hall : arrived = count) :
    ∀ place ∈ places, place + 1 < count := by
  induction harrives with
  | done =>
    intro place hmem
    cases hmem
  | next hlt _ _ => exact absurd hall hlt.ne
  | again _ hnext _ ih =>
    intro place hmem
    rcases List.mem_cons.mp hmem with rfl | hmem
    · exact hnext
    · exact ih hall place hmem

/-! ## One block of a message -/

theorem isContiguous_range {count : ℕ} (hpos : 0 < count) :
    isContiguous ((List.range count).map fun i : ℕ ↦ (i : ℤ)) true = true := by
  simp only [isContiguous, if_true, Bool.decide_and, Bool.and_eq_true, decide_eq_true_iff,
    List.all_eq_true]
  constructor
  · cases count with
    | zero => exact absurd hpos (lt_irrefl 0)
    | succ count => rw [List.range_succ_eq_map, List.map_cons, List.head?_cons, Nat.cast_zero]
  · intro w hw
    obtain ⟨i, hi, rfl⟩ := List.getElem_of_mem hw
    simp

/-- The first texts of a message under their places. -/
def placed (texts : List String) : List (ℤ × String) :=
  texts.zipIdx.map fun x ↦ ((x.2 : ℤ), x.1)

theorem placed_take_succ {texts : List String} {place : ℕ} {text : String}
    (htext : texts[place]? = some text) :
    placed (texts.take (place + 1)) = placed (texts.take place) ++ [((place : ℤ), text)] := by
  have hlt : place < texts.length := (List.getElem?_eq_some_iff.mp htext).1
  have hlength : (texts.take place).length = place := by
    rw [List.length_take]
    omega
  rw [placed, List.take_add_one, htext, List.zipIdx_append, List.map_append, ← placed, hlength]
  simp

theorem mem_placed {texts : List String} {entry : ℤ × String} (hmem : entry ∈ placed texts) :
    0 ≤ entry.1 ∧ entry.1 < texts.length := by
  obtain ⟨x, hx, rfl⟩ := List.mem_map.mp hmem
  have hlt := (List.mem_zipIdx' hx).1
  simp only [Nat.cast_nonneg, Nat.cast_lt, true_and]
  exact hlt

theorem placed_map_snd (texts : List String) : (placed texts).map Prod.snd = texts := by
  rw [placed, List.map_map]
  exact List.zipIdx_map_fst 0 texts

theorem placed_map_fst (texts : List String) :
    (placed texts).map Prod.fst = (List.range texts.length).map fun i : ℕ ↦ (i : ℤ) := by
  rw [placed, List.map_map, List.range_eq_range', ← List.zipIdx_map_snd 0 texts, List.map_map]
  rfl

/-- The entry of a message whose blocks with these texts have arrived. -/
def Holds (r : Reassembler) (key : Key) (texts : List String) (deadline : ℚ) : Prop :=
  ∃ entry, r.entries key = some entry ∧ entry.frags.entries = placed texts ∧
    entry.deadline = deadline

namespace Reassembler

variable {r : Reassembler} {key : Key} {core : AcarsCore} {nowSecs deadline : ℚ} {place : ℕ}
  {texts : List String}

/-- A push to an open message. -/
theorem push_of_open {entry : Entry} (hplace : placeOf key core = some place)
    (hentry : r.entries key = some entry) (hopen : nowSecs < entry.deadline) :
    r.push core nowSecs =
      if entry.frags.contains place then ((r.retain nowSecs).set key (some entry), .duplicate)
      else if core.moreToCome then
        ((r.retain nowSecs).set key
          (some { entry with frags := entry.frags.insert place core.text }), .inProgress)
      else
        ((r.retain nowSecs).set key none,
          if isContiguous (entry.frags.insert place core.text).keys true then
            .complete (String.join (entry.frags.insert place core.text).values)
          else .incomplete) := by
  obtain ⟨frag, hfrag, hdown, rfl, hseq⟩ := blockOf_eq_some.mp (placeOf_eq_some.mp hplace)
  have hkept : (r.retain nowSecs).entries (keyOf core frag) = some entry :=
    Option.filter_eq_some_iff.mpr ⟨hentry, decide_eq_true hopen⟩
  rw [push_of_fragment hfrag]
  simp only [opened, hkept, Option.getD_some, Option.isNone_some, Bool.false_eq_true, false_and,
    and_false, if_false, hseq, hdown]

/-- The first block of a message opens its entry. -/
theorem push_first (hplace : placeOf key core = some 0) (hentry : r.entries key = none)
    (hmore : core.moreToCome = true) :
    (r.push core nowSecs).2 = .inProgress ∧
      Holds (r.push core nowSecs).1 key [core.text] (nowSecs + r.timeoutSecs) := by
  obtain ⟨frag, hfrag, hdown, rfl, hseq⟩ := blockOf_eq_some.mp (placeOf_eq_some.mp hplace)
  have hkept : (r.retain nowSecs).entries (keyOf core frag) = none := by
    simp only [retain, hentry, Option.filter_none]
  have hpush : r.push core nowSecs =
      ((r.retain nowSecs).set (keyOf core frag)
        (some ⟨SortedMap.empty.insert frag.seq core.text, nowSecs + r.timeoutSecs⟩),
        .inProgress) := by
    rw [push_of_fragment hfrag]
    simp only [opened, hkept, hmore, Option.getD_none, Bool.not_true, Bool.false_eq_true, false_and,
      if_false, if_true]
    rfl
  rw [hpush]
  refine ⟨rfl, _, set_entries_self _ _, ?_, rfl⟩
  rw [hseq]
  rfl

/-- A block that has arrived before changes nothing. -/
theorem push_again (hplace : placeOf key core = some place) (hholds : Holds r key texts deadline)
    (hopen : nowSecs < deadline) (hlt : place < texts.length) :
    (r.push core nowSecs).2 = .duplicate ∧ Holds (r.push core nowSecs).1 key texts deadline := by
  obtain ⟨entry, hentry, hfrags, rfl⟩ := hholds
  have hcontains : entry.frags.contains place = true := by
    rw [SortedMap.contains_iff, hfrags]
    exact ⟨texts[place], List.mem_map.mpr ⟨(texts[place], place), List.mem_zipIdx_iff_getElem?.mpr
      (List.getElem?_eq_getElem hlt), rfl⟩⟩
  rw [push_of_open hplace hentry hopen, if_pos hcontains]
  exact ⟨rfl, entry, set_entries_self _ _, hfrags, rfl⟩

/-- Only a final block hands out a text. -/
theorem push_more_silent (hmore : core.moreToCome = true) :
    (r.push core nowSecs).2.text? = none := by
  cases hfrag : fragment core with
  | none =>
    rw [push_of_none hfrag]
    rfl
  | some frag =>
    rw [push_of_fragment hfrag]
    simp only [hmore, Bool.not_true, Bool.false_eq_true, false_and, if_false, if_true]
    split_ifs <;> rfl

/-- The entry of a message with the block in its turn added. -/
theorem insert_next {frags : SortedMap ℤ String} {text : String}
    (hfrags : frags.entries = placed (texts.take place)) (htext : texts[place]? = some text) :
    frags.contains place = false ∧
      (frags.insert place text).entries = placed (texts.take (place + 1)) := by
  have hbelow : ∀ entry ∈ frags.entries, entry.1 < (place : ℤ) := by
    intro entry hmem
    rw [hfrags] at hmem
    have hlt := (mem_placed hmem).2
    have hle : (texts.take place).length ≤ place := List.length_take_le _ _
    omega
  constructor
  · rw [Bool.eq_false_iff]
    intro hcontains
    obtain ⟨value, hmem⟩ := SortedMap.contains_iff.mp hcontains
    exact lt_irrefl _ (hbelow _ hmem)
  · rw [SortedMap.insert_entries_of_lt hbelow, hfrags, placed_take_succ htext]

theorem push_next (hplace : placeOf key core = some place)
    (hholds : Holds r key (texts.take place) deadline) (hopen : nowSecs < deadline)
    (htext : texts[place]? = some core.text) (hmore : core.moreToCome = true) :
    (r.push core nowSecs).2 = .inProgress ∧
      Holds (r.push core nowSecs).1 key (texts.take (place + 1)) deadline := by
  obtain ⟨entry, hentry, hfrags, rfl⟩ := hholds
  obtain ⟨hnew, hinserted⟩ := insert_next hfrags htext
  rw [push_of_open hplace hentry hopen, hnew, if_neg Bool.false_ne_true, if_pos hmore]
  exact ⟨rfl, _, set_entries_self _ _, hinserted, rfl⟩

theorem push_last (hplace : placeOf key core = some place)
    (hholds : Holds r key (texts.take place) deadline) (hopen : nowSecs < deadline)
    (htext : texts[place]? = some core.text) (hmore : core.moreToCome = false)
    (hlast : place + 1 = texts.length) :
    (r.push core nowSecs).2 = .complete (String.join texts) := by
  obtain ⟨entry, hentry, hfrags, rfl⟩ := hholds
  obtain ⟨hnew, hinserted⟩ := insert_next hfrags htext
  rw [hlast, List.take_length] at hinserted
  have hkeys : isContiguous (entry.frags.insert place core.text).keys true = true := by
    rw [SortedMap.keys, hinserted, placed_map_fst]
    exact isContiguous_range (by omega)
  rw [push_of_open hplace hentry hopen, hnew, if_neg Bool.false_ne_true, hmore,
    if_neg Bool.false_ne_true, if_pos hkeys, SortedMap.values, hinserted, placed_map_snd]

/-- Other pushes leave a message alone until its deadline. -/
theorem push_other (hdown : key.msgNum ≠ "") (hplace : placeOf key core = none)
    (hholds : Holds r key texts deadline) (hopen : nowSecs < deadline) :
    Holds (r.push core nowSecs).1 key texts deadline := by
  obtain ⟨entry, hentry, hfrags, rfl⟩ := hholds
  refine ⟨entry, ?_, hfrags, rfl⟩
  rw [push_entries_of_ne (placeOf_eq_none hdown hplace), hentry]
  exact Option.filter_eq_some_iff.mpr ⟨rfl, decide_eq_true hopen⟩

end Reassembler

/-! ## Whole messages -/

section Message

variable {key : Key} {texts : List String} {timeoutSecs : ℚ} {arrived place : ℕ}
  {p : AcarsCore × ℚ} {pushes : List (AcarsCore × ℚ)} {r : Reassembler}

theorem placesOf_cons_of_none (hplace : placeOf key p.1 = none) :
    placesOf key (p :: pushes) = placesOf key pushes := by
  simp [placesOf, hplace]

theorem placesOf_cons_of_some (hplace : placeOf key p.1 = some place) :
    placesOf key (p :: pushes) = place :: placesOf key pushes := by
  simp [placesOf, hplace]

theorem Message.tail (hmessage : Message timeoutSecs key texts arrived (p :: pushes)) {next : ℕ}
    (harrives : Arrives texts.length next (placesOf key pushes)) :
    Message timeoutSecs key texts next pushes where
  text q hq := hmessage.text q (List.mem_cons_of_mem _ hq)
  final q hq := hmessage.final q (List.mem_cons_of_mem _ hq)
  arrives := harrives
  inTime := hmessage.inTime.of_cons

theorem Message.tail_of_none (hmessage : Message timeoutSecs key texts arrived (p :: pushes))
    (hplace : placeOf key p.1 = none) : Message timeoutSecs key texts arrived pushes := by
  apply hmessage.tail
  rw [← placesOf_cons_of_none hplace]
  exact hmessage.arrives

theorem Message.arrives_of_some (hmessage : Message timeoutSecs key texts arrived (p :: pushes))
    (hplace : placeOf key p.1 = some place) :
    Arrives texts.length arrived (place :: placesOf key pushes) := by
  rw [← placesOf_cons_of_some hplace]
  exact hmessage.arrives

/-- While blocks are to come, the message is still open for any push. -/
theorem Message.before (hmessage : Message timeoutSecs key texts arrived (p :: pushes))
    (hsorted : (p :: pushes).Pairwise fun p q ↦ p.2 ≤ q.2) (hlt : arrived < texts.length)
    {deadline : ℚ}
    (hdeadline : ∀ q ∈ p :: pushes, (placeOf key q.1).isSome → q.2 < deadline) :
    p.2 < deadline := by
  obtain ⟨place, hplace⟩ := List.exists_mem_of_ne_nil _ (hmessage.arrives.ne_nil hlt)
  obtain ⟨q, hq, hfound⟩ := List.mem_filterMap.mp hplace
  have hqtime := hdeadline q hq (Option.isSome_of_eq_some hfound)
  rcases List.mem_cons.mp hq with rfl | hlater
  · exact hqtime
  · exact lt_of_le_of_lt (List.rel_of_pairwise_cons hsorted hlater) hqtime

/-- After the last block nothing more is handed out. -/
theorem completed_of_arrived (hmessage : Message timeoutSecs key texts texts.length pushes) :
    r.completed key pushes = [] := by
  induction pushes generalizing r with
  | nil => rfl
  | cons p pushes ih =>
    cases hplace : placeOf key p.1 with
    | none =>
      rw [Reassembler.completed_cons_of_none hplace]
      exact ih (hmessage.tail_of_none hplace)
    | some place =>
      have harrives := hmessage.arrives_of_some hplace
      have hmore : p.1.moreToCome = true := by
        rw [hmessage.final p (List.mem_cons_self ..) place hplace]
        exact decide_eq_true (harrives.not_last rfl place (List.mem_cons_self ..))
      cases harrives with
      | next hlt _ => exact absurd rfl hlt.ne
      | again _ _ htail =>
        rw [Reassembler.completed_cons_of_silent (Reassembler.push_more_silent hmore)]
        exact ih (hmessage.tail htail)

/-- An open message is handed out when its last block comes. -/
theorem completed_of_holds {deadline : ℚ}
    (hmessage : Message timeoutSecs key texts arrived pushes)
    (hsorted : pushes.Pairwise fun p q ↦ p.2 ≤ q.2) (hlt : arrived < texts.length)
    (hholds : Holds r key (texts.take arrived) deadline)
    (hdeadline : ∀ q ∈ pushes, (placeOf key q.1).isSome → q.2 < deadline)
    (hdown : key.msgNum ≠ "") : r.completed key pushes = [String.join texts] := by
  induction pushes generalizing r arrived with
  | nil => exact absurd rfl (hmessage.arrives.ne_nil hlt)
  | cons p pushes ih =>
    have hopen := hmessage.before hsorted hlt hdeadline
    have hlater : ∀ q ∈ pushes, (placeOf key q.1).isSome → q.2 < deadline := fun q hq ↦
      hdeadline q (List.mem_cons_of_mem _ hq)
    cases hplace : placeOf key p.1 with
    | none =>
      rw [Reassembler.completed_cons_of_none hplace]
      exact ih (hmessage.tail_of_none hplace) hsorted.of_cons hlt
        (Reassembler.push_other hdown hplace hholds hopen) hlater
    | some place =>
      have htext := hmessage.text p (List.mem_cons_self ..) place hplace
      have hfinal := hmessage.final p (List.mem_cons_self ..) place hplace
      cases hmessage.arrives_of_some hplace with
      | next _ htail =>
        by_cases hmore : arrived + 1 < texts.length
        · rw [decide_eq_true hmore] at hfinal
          obtain ⟨hanswer, hnext⟩ := Reassembler.push_next hplace hholds hopen htext hfinal
          rw [Reassembler.completed_cons_of_silent (Reassembler.push_more_silent hfinal)]
          exact ih (hmessage.tail htail) hsorted.of_cons hmore hnext hlater
        · have hlast : arrived + 1 = texts.length := by omega
          rw [decide_eq_false hmore] at hfinal
          have hanswer := Reassembler.push_last hplace hholds hopen htext hfinal hlast
          rw [Reassembler.completed_cons_of_text hplace (congrArg Reasm.text? hanswer)]
          rw [hlast] at htail
          exact congrArg _ (completed_of_arrived (hmessage.tail htail))
      | again hbefore hmore htail =>
        rw [decide_eq_true hmore] at hfinal
        have hshort : place < (texts.take arrived).length := by
          rw [List.length_take]
          omega
        obtain ⟨hanswer, hkept⟩ := Reassembler.push_again hplace hholds hopen hshort
        rw [Reassembler.completed_cons_of_silent (Reassembler.push_more_silent hfinal)]
        exact ih (hmessage.tail htail) hsorted.of_cons hlt hkept hlater

/-- A message none of whose blocks has arrived is handed out once. -/
theorem completed_of_none (hmessage : Message r.timeoutSecs key texts 0 pushes)
    (hsorted : pushes.Pairwise fun p q ↦ p.2 ≤ q.2) (htwo : 2 ≤ texts.length)
    (hentry : r.entries key = none) : r.completed key pushes = [String.join texts] := by
  induction pushes generalizing r with
  | nil => exact absurd rfl (hmessage.arrives.ne_nil (by omega))
  | cons p pushes ih =>
    have hdown : key.msgNum ≠ "" := by
      obtain ⟨place, hplace⟩ := List.exists_mem_of_ne_nil _ (hmessage.arrives.ne_nil (by omega))
      obtain ⟨q, _, hfound⟩ := List.mem_filterMap.mp hplace
      exact msgNum_of_placeOf hfound
    cases hplace : placeOf key p.1 with
    | none =>
      rw [Reassembler.completed_cons_of_none hplace]
      have hkept : (r.push p.1 p.2).1.entries key = none := by
        rw [Reassembler.push_entries_of_ne (placeOf_eq_none hdown hplace), hentry]
        rfl
      apply ih ?_ hsorted.of_cons hkept
      rw [Reassembler.push_timeoutSecs]
      exact hmessage.tail_of_none hplace
    | some place =>
      rcases (hmessage.arrives_of_some hplace).of_cons with ⟨rfl, htail⟩ | ⟨hbefore, _⟩
      · have htext := hmessage.text p (List.mem_cons_self ..) 0 hplace
        have hfinal := hmessage.final p (List.mem_cons_self ..) 0 hplace
        rw [decide_eq_true (by omega)] at hfinal
        have hholds : Holds (r.push p.1 p.2).1 key [p.1.text] (p.2 + r.timeoutSecs) :=
          (Reassembler.push_first hplace hentry hfinal).2
        have htake : [p.1.text] = texts.take 1 := by
          rw [List.take_one, List.head?_eq_getElem?, htext, Option.toList_some]
        rw [htake] at hholds
        have hdeadline : ∀ q ∈ pushes, (placeOf key q.1).isSome → q.2 < p.2 + r.timeoutSecs :=
          fun q hq ↦ List.rel_of_pairwise_cons hmessage.inTime hq (Option.isSome_of_eq_some hplace)
        rw [Reassembler.completed_cons_of_silent (Reassembler.push_more_silent hfinal)]
        exact completed_of_holds (hmessage.tail htail) hsorted.of_cons htwo hholds hdeadline hdown
      · exact absurd hbefore (Nat.not_lt_zero _)

end Message

/-- A block of the aircraft `tail` as the tests make them. -/
def core (tail : String) (blockId : Char) (msgNum : Option String) (text : String) (more : Bool) :
    AcarsCore :=
  ⟨some tail, "H1", some blockId, msgNum, text, more⟩

/-- The blocks of two aircraft, interleaved and with the first of them repeated. -/
def twoAircraft : List (AcarsCore × ℚ) :=
  [(core "N11111" '2' (some "M01A") "AAA" true, 0), (core "N22222" '2' (some "M55A") "BBB" true, 0),
    (core "N11111" '2' (some "M01A") "AAA" true, 1), (core "N11111" '3' (some "M01B") "aaa" false, 1),
    (core "N22222" '3' (some "M55B") "bbb" false, 1)]

theorem twoAircraft_message :
    Message 120 ⟨"N11111", "H1", "M01"⟩ ["AAA", "aaa"] 0 twoAircraft where
  text := by decide
  final := by decide
  arrives := by
    have hplaces : placesOf ⟨"N11111", "H1", "M01"⟩ twoAircraft = [0, 0, 1] := by decide
    rw [hplaces]
    apply Arrives.next (by decide)
    apply Arrives.again (by decide) (by decide)
    exact Arrives.next (by decide) Arrives.done
  inTime := by decide +kernel

end Sdrmm.Acars
