import Mathlib.Data.List.DropRight
import Mathlib.Tactic
import Sdrmm.Engine.TimeMachine

/-!
# What a time-machine capture holds

However the tap and the keeper interleave, a capture holds the samples the ring held when it began
and then every sample drained until it closed, and each sample behind the first capture segment
lies in a segment labelled with the centre it was pushed with.
-/

namespace Sdrmm.TimeMachine

variable {α C : Type}

/-! ## The ring keeps the last samples -/

theorem rtake_append {a b : List α} {count : ℕ} (hcount : count ≤ b.length) :
    (a ++ b).rtake count = b.rtake count := by
  rw [List.rtake_eq_reverse_take_reverse, List.rtake_eq_reverse_take_reverse, List.reverse_append,
    List.take_append_of_le_length (by rwa [List.length_reverse])]

theorem rtake_drop {a : List α} {skip count : ℕ} (hcount : count ≤ (a.drop skip).length) :
    (a.drop skip).rtake count = a.rtake count := by
  conv_rhs => rw [← List.take_append_drop skip a]
  rw [rtake_append hcount]

theorem rtake_rtake_append {a b : List α} {held count : ℕ}
    (hcount : count ≤ (a.rtake held ++ b).length) :
    (a.rtake held ++ b).rtake count = (a ++ b).rtake count := by
  have hsplit : a ++ b = a.take (a.length - held) ++ (a.rtake held ++ b) := by
    rw [← List.append_assoc]
    exact congrArg (· ++ b) (List.take_append_drop _ a).symm
  rw [hsplit, rtake_append hcount]

theorem length_rtake (a : List α) (count : ℕ) : (a.rtake count).length = min count a.length := by
  rw [List.rtake, List.length_drop]
  omega

namespace History

/-- The ring in the order it was written, oldest first. -/
def order (h : History α) : List α := h.ring.drop h.write ++ h.ring.take h.write

/-- The ring holds the last samples of `drained`. -/
structure Holds (h : History α) (capacity : ℕ) (drained : List α) : Prop where
  size : h.ring.length = capacity
  write_lt : h.write < capacity
  filled_eq : h.filled = min capacity drained.length
  next_eq : h.next = drained.length
  contents : h.order.rtake h.filled = drained.rtake h.filled

theorem length_splice {ring samples : List α} {at₀ : ℕ} (hfit : at₀ + samples.length ≤ ring.length) :
    (splice ring at₀ samples).length = ring.length := by
  unfold splice
  simp only [List.length_append, List.length_take, List.length_drop]
  omega

variable {h : History α} {capacity : ℕ} {drained : List α}

theorem Holds.length_order (hholds : Holds h capacity drained) : h.order.length = capacity := by
  have hsize := hholds.size
  have hwrite := hholds.write_lt
  simp only [order, List.length_append, List.length_drop, List.length_take]
  omega

theorem splice_append {a b d samples : List α} (hlen : samples.length = b.length) :
    splice (a ++ b ++ d) a.length samples = a ++ samples ++ d := by
  have htake : (a ++ b ++ d).take a.length = a := by rw [List.append_assoc, List.take_left]
  have hdrop : (a ++ b ++ d).drop (a.length + b.length) = d := by
    rw [← List.length_append, List.drop_left]
  unfold splice
  rw [hlen, htake, hdrop]

/-- A tail that fits before the end of the ring. -/
theorem order_splice_inside {a b d tail : List α} (htail : tail.length = b.length)
    (hpos : 0 < (a ++ b ++ d).length) :
    let written := splice (a ++ b ++ d) a.length tail
    let moved := (a.length + tail.length) % (a ++ b ++ d).length
    written.drop moved ++ written.take moved = d ++ a ++ tail := by
  intro written moved
  have hwritten : written = a ++ tail ++ d := splice_append htail
  by_cases hd : d = []
  · subst hd
    have hmoved : moved = 0 := by
      simp only [moved, htail, List.append_nil, List.length_append, Nat.mod_self]
    rw [hmoved, hwritten]
    simp
  · have hlt : a.length + tail.length < (a ++ b ++ d).length := by
      have := List.length_pos_iff.mpr hd
      simp only [List.length_append]
      omega
    have hmoved : moved = (a ++ tail).length := by
      rw [List.length_append]
      exact Nat.mod_eq_of_lt hlt
    rw [hmoved, hwritten, List.drop_left, List.take_left, List.append_assoc]

/-- A tail that runs over the end of the ring and on from its start. -/
theorem order_splice_around {e m d front back : List α} (hfront : front.length = d.length)
    (hback : back.length = e.length) (hd : 0 < d.length) :
    let written := splice (splice (e ++ m ++ d) (e ++ m).length front) 0 back
    let moved := ((e ++ m).length + (front ++ back).length) % (e ++ m ++ d).length
    written.drop moved ++ written.take moved = m ++ (front ++ back) := by
  intro written moved
  have hwritten : written = back ++ m ++ front := by
    have houter := splice_append (a := e ++ m) (b := d) (d := []) hfront
    rw [List.append_nil, List.append_nil] at houter
    have hinner := splice_append (a := []) (b := e) (d := m ++ front) hback
    simp only [written]
    rw [houter]
    simpa [List.append_assoc] using hinner
  have hmoved : moved = back.length := by
    have hsum : (e ++ m).length + (front ++ back).length = back.length + (e ++ m ++ d).length := by
      simp only [List.length_append]
      omega
    simp only [moved]
    rw [hsum, Nat.add_mod_right]
    apply Nat.mod_eq_of_lt
    simp only [List.length_append]
    omega
  rw [hmoved, hwritten, List.append_assoc, List.drop_left, List.take_left, List.append_assoc]

/-- Writing a tail that fits moves the oldest samples out at the front. -/
theorem order_splice {ring : List α} (tail : List α) {write : ℕ} (hwrite : write < ring.length)
    (htail : tail.length ≤ ring.length) :
    let first := min tail.length (ring.length - write)
    let written := splice (splice ring write (tail.take first)) 0 (tail.drop first)
    let moved := (write + tail.length) % ring.length
    written.drop moved ++ written.take moved =
      (ring.drop write ++ ring.take write ++ tail).drop tail.length := by
  by_cases hinside : write + tail.length ≤ ring.length
  · let a := ring.take write
    let b := (ring.drop write).take tail.length
    let d := (ring.drop write).drop tail.length
    have hring : ring = a ++ b ++ d := by
      simp only [a, b, d, List.append_assoc, List.take_append_drop]
    have ha : a.length = write := by
      simp only [a, List.length_take]
      omega
    have hb : tail.length = b.length := by
      simp only [b, List.length_take, List.length_drop]
      omega
    have hfirst : min tail.length (ring.length - write) = tail.length := by omega
    have hrotated : ring.drop write ++ ring.take write = b ++ d ++ a := by
      simp only [a, b, d, List.take_append_drop]
    have hnothing (x : List α) : splice x 0 [] = x := by simp [splice]
    have hmain := order_splice_inside (a := a) (d := d) hb (by rw [← hring]; omega)
    rw [← hring, ha] at hmain
    simp only [hfirst, List.take_length, List.drop_length, hnothing]
    rw [hmain, hrotated, hb]
    simp only [List.append_assoc, List.drop_left]
  · let first := ring.length - write
    let e := ring.take (tail.length - first)
    let m := (ring.take write).drop (tail.length - first)
    let d := ring.drop write
    have hem : e ++ m = ring.take write := by
      have he : e = (ring.take write).take (tail.length - first) := by
        rw [List.take_take, Nat.min_eq_left (by omega)]
      rw [he, List.take_append_drop]
    have hring : ring = e ++ m ++ d := by rw [hem, List.take_append_drop]
    have hlen : (e ++ m).length = write := by
      rw [hem, List.length_take]
      omega
    have hd : (tail.take first).length = d.length := by
      simp only [d, List.length_take, List.length_drop]
      omega
    have he : (tail.drop first).length = e.length := by
      simp only [e, List.length_take, List.length_drop]
      omega
    have hfirst : min tail.length (ring.length - write) = first := by omega
    have hmain := order_splice_around (m := m) hd he (by simp only [d, List.length_drop]; omega)
    rw [← hring, hlen, List.take_append_drop] at hmain
    have hcut : tail.length = (d ++ e).length := by
      rw [List.length_append, ← hd, ← he, ← List.length_append, List.take_append_drop]
    simp only [hfirst]
    rw [hmain, ← hem]
    change _ = (d ++ (e ++ m) ++ tail).drop tail.length
    rw [← List.append_assoc d e m, List.append_assoc (d ++ e) m tail]
    conv_rhs => rw [hcut]
    rw [List.drop_left]

theorem Holds.append (hholds : Holds h capacity drained) (samples : List α) :
    Holds (h.append samples) capacity (drained ++ samples) := by
  obtain ⟨hsize, hwrite, hfilled, hnext, hcontents⟩ := hholds
  have horderLen := Holds.length_order ⟨hsize, hwrite, hfilled, hnext, hcontents⟩
  let tail := samples.drop (samples.length - capacity)
  have htail : tail.length = min samples.length capacity := by
    simp only [tail, List.length_drop]
    omega
  have hcapacity : h.capacity = capacity := hsize
  have happended : (h.append samples).ring = splice (splice h.ring h.write
      (tail.take (min tail.length (capacity - h.write)))) 0
      (tail.drop (min tail.length (capacity - h.write))) := by
    simp only [History.append, hcapacity, tail]
  have hmoved : (h.append samples).write = (h.write + tail.length) % capacity := by
    simp only [History.append, hcapacity, tail]
  have hring : (h.append samples).ring.length = capacity := by
    rw [happended, length_splice, length_splice, hsize]
    · simp only [List.length_take]
      omega
    · rw [length_splice (by simp only [List.length_take]; omega)]
      simp only [List.length_drop]
      omega
  have horder : (h.append samples).order = (h.order ++ tail).drop tail.length := by
    have hmain := order_splice tail (hsize ▸ hwrite) (by omega)
    rw [hsize] at hmain
    unfold order
    rw [hmoved, happended]
    exact hmain
  have hkept : (h.append samples).filled = min capacity (drained ++ samples).length := by
    simp only [History.append, hcapacity, List.length_append]
    change min (h.filled + tail.length) capacity = _
    omega
  refine ⟨hring, ?_, hkept, ?_, ?_⟩
  · rw [hmoved]
    exact Nat.mod_lt _ (by omega)
  · simp only [History.append, hnext, List.length_append]
  · have hholdsLen : (h.append samples).filled ≤ (h.order ++ tail).length - tail.length := by
      simp only [hkept, List.length_append, horderLen]
      omega
    rw [horder, rtake_drop (by rw [List.length_drop]; exact hholdsLen)]
    by_cases hshort : samples.length ≤ capacity
    · -- the samples already held and the whole block
      have hwhole : tail = samples := by
        simp only [tail, Nat.sub_eq_zero_of_le hshort, List.drop_zero]
      have hlen : (h.append samples).filled ≤ (h.order.rtake h.filled ++ samples).length := by
        simp only [hkept, List.length_append, length_rtake, horderLen]
        omega
      rw [hwhole, ← rtake_rtake_append hlen, hcontents, rtake_rtake_append]
      rw [← hcontents]
      exact hlen
    · -- a block longer than the ring leaves only its own tail
      have hlen : (h.append samples).filled ≤ tail.length := by
        rw [hkept, htail]
        omega
      rw [rtake_append hlen]
      have hsamples : drained ++ samples =
          (drained ++ samples.take (samples.length - capacity)) ++ tail := by
        rw [List.append_assoc, List.take_append_drop]
      rw [hsamples, rtake_append hlen]

theorem window_eq (hholds : Holds h capacity drained) :
    h.window.1 ++ h.window.2 = drained.rtake h.filled := by
  have horderLen := hholds.length_order
  obtain ⟨hsize, hwrite, hfilled, hnext, hcontents⟩ := hholds
  have hcapacity : h.capacity = capacity := hsize
  have hle : h.filled ≤ capacity := by omega
  rw [← hcontents, List.rtake, horderLen]
  unfold window order
  simp only [hcapacity]
  by_cases hbehind : h.filled ≤ h.write
  · -- the samples held lie before the place of the next one
    have hstart : (h.write + capacity - h.filled) % capacity = h.write - h.filled := by
      rw [Nat.sub_add_comm hbehind, Nat.add_mod_right]
      exact Nat.mod_eq_of_lt (by omega)
    have hskip : capacity - h.filled = (h.ring.drop h.write).length + (h.write - h.filled) := by
      rw [List.length_drop, hsize]
      omega
    have hcount : h.write - (h.write - h.filled) = h.filled := by omega
    rw [hstart, if_pos (by omega), hskip, List.drop_append, List.append_nil]
    simp only [List.drop_eq_nil_of_le (Nat.le_add_right _ _), Nat.add_sub_cancel_left,
      List.nil_append, List.drop_take, hcount]
  · have hstart : (h.write + capacity - h.filled) % capacity = h.write + capacity - h.filled :=
      Nat.mod_eq_of_lt (by omega)
    have hskip : capacity - h.filled ≤ (h.ring.drop h.write).length := by
      rw [List.length_drop, hsize]
      omega
    have hsum : h.write + (capacity - h.filled) = h.write + capacity - h.filled := by omega
    rw [hstart, List.drop_append_of_le_length hskip, List.drop_drop, hsum]
    by_cases hzero : h.write = 0
    · rw [if_pos (by omega), hzero, List.take_zero, List.append_nil, List.append_nil]
      apply List.take_of_length_le
      rw [List.length_drop, hsize]
      omega
    · have hcount : h.filled - (capacity - (h.write + capacity - h.filled)) = h.write := by omega
      rw [if_neg (by omega), hcount]

end History

/-! ## Marks -/

namespace Marks

/-- The last mark at or before a position decides its centre. -/
theorem centerAt_snoc (base : C) (list : List (CenterMark C)) (mark : CenterMark C) (at₀ : ℕ) :
    centerAt ⟨base, list ++ [mark]⟩ at₀ =
      if mark.at₀ ≤ at₀ then mark.centerHz else centerAt ⟨base, list⟩ at₀ := by
  unfold centerAt
  rw [List.reverse_append, List.reverse_singleton, List.singleton_append, List.find?_cons]
  by_cases hle : mark.at₀ ≤ at₀
  · simp [hle]
  · simp [hle]

theorem centerAt_append_of_lt {base : C} {list more : List (CenterMark C)} {at₀ : ℕ}
    (hmore : ∀ mark ∈ more, at₀ < mark.at₀) :
    centerAt ⟨base, list ++ more⟩ at₀ = centerAt ⟨base, list⟩ at₀ := by
  induction more using List.reverseRecOn with
  | nil => rw [List.append_nil]
  | append_singleton more mark ih =>
    have hmark : ¬ mark.at₀ ≤ at₀ := Nat.not_le.mpr (hmore mark (by simp))
    rw [← List.append_assoc, centerAt_snoc, if_neg hmark]
    exact ih fun other hother ↦ hmore other (List.mem_append_left _ hother)

theorem centerAt_congr {base : C} {list : List (CenterMark C)} {p q : ℕ}
    (hsame : ∀ mark ∈ list, mark.at₀ ≤ p ↔ mark.at₀ ≤ q) :
    centerAt ⟨base, list⟩ p = centerAt ⟨base, list⟩ q := by
  induction list using List.reverseRecOn with
  | nil => rfl
  | append_singleton list mark ih =>
    have hmark := hsame mark (by simp)
    rw [centerAt_snoc, centerAt_snoc, ih fun other hother ↦ hsame other (by simp [hother])]
    simp only [hmark]

theorem centerAt_cons_of_le {base : C} {list : List (CenterMark C)} {mark : CenterMark C} {at₀ : ℕ}
    (hmark : mark.at₀ ≤ at₀) :
    centerAt ⟨base, mark :: list⟩ at₀ = centerAt ⟨mark.centerHz, list⟩ at₀ := by
  induction list using List.reverseRecOn with
  | nil => simp [centerAt, hmark]
  | append_singleton list last ih =>
    rw [← List.cons_append, centerAt_snoc, centerAt_snoc, ih]

/-- Trimming forgets nothing about the positions still held. -/
theorem centerAt_trim {marks : Marks C} {before at₀ : ℕ} (hat : before ≤ at₀) :
    (marks.trim before).centerAt at₀ = marks.centerAt at₀ := by
  obtain ⟨base, list⟩ := marks
  unfold trim
  induction list generalizing base with
  | nil => rfl
  | cons mark list ih =>
    rw [trimFrom]
    split
    case isTrue hle => rw [ih, ← centerAt_cons_of_le (hle.trans hat)]
    case isFalse => rfl

theorem trim_sublist (marks : Marks C) (before : ℕ) :
    (marks.trim before).list.Sublist marks.list := by
  obtain ⟨base, list⟩ := marks
  unfold trim
  induction list generalizing base with
  | nil => exact List.Sublist.refl _
  | cons mark list ih =>
    rw [trimFrom]
    split
    · exact (ih mark.centerHz).trans (List.sublist_cons_self mark list)
    · exact List.Sublist.refl _

/-- Marks in the order of their positions. -/
def Sorted (list : List (CenterMark C)) : Prop := list.Pairwise (fun x y ↦ x.at₀ ≤ y.at₀)

theorem lt_of_nextAfter {marks : Marks C} {at₀ until₀ : ℕ}
    (hnext : marks.nextAfter at₀ = some until₀) : at₀ < until₀ := by
  obtain ⟨mark, hfind, rfl⟩ := Option.map_eq_some_iff.mp hnext
  simpa using List.find?_some hfind

/-- The centre does not change before the next mark. -/
theorem centerAt_of_nextAfter {marks : Marks C} (hsorted : Sorted marks.list) {at₀ p : ℕ}
    (hle : at₀ ≤ p) (hbefore : ∀ until₀, marks.nextAfter at₀ = some until₀ → p < until₀) :
    marks.centerAt p = marks.centerAt at₀ := by
  obtain ⟨base, list⟩ := marks
  apply centerAt_congr
  intro mark hmark
  refine ⟨?_, fun h ↦ h.trans hle⟩
  intro hp
  by_contra hlate
  -- the first mark past `at₀` comes at or before this one
  cases hfind : list.find? (at₀ < ·.at₀) with
  | none =>
    have hnot := List.find?_eq_none.mp hfind mark hmark
    simp at hnot
    omega
  | some found =>
    have hlt := hbefore found.at₀ (by unfold nextAfter; rw [hfind]; rfl)
    obtain ⟨-, early, late, hsplit, hearly⟩ := List.find?_eq_some_iff_append.mp hfind
    rw [hsplit] at hmark hsorted
    rcases List.mem_append.mp hmark with hm | hm
    · have hnot := hearly mark hm
      simp at hnot
      omega
    · rcases List.mem_cons.mp hm with rfl | hm
      · omega
      · have hord := (List.pairwise_append.mp hsorted).2.1
        have := List.rel_of_pairwise_cons hord hm
        omega

end Marks

/-! ## Recordings -/

variable [BEq C]

/-- Two centres the source does not tell apart. -/
def Same (a b : C) : Prop := a = b ∨ (a == b) = true

theorem Same.refl (a : C) : Same a a := Or.inl rfl

theorem Same.trans [PartialEquivBEq C] {a b c : C} (hab : Same a b) (hbc : Same b c) :
    Same a c := by
  rcases hab with rfl | hab
  · exact hbc
  · rcases hbc with rfl | hbc
    · exact Or.inr hab
    · exact Or.inr (PartialEquivBEq.trans hab hbc)

/-- The segment sample `i` lies in, when it lies behind the first one. -/
def segmentAt (captures : List (ℕ × C)) (i : ℕ) : Option (ℕ × C) :=
  captures.tail.reverse.find? (·.1 ≤ i)

omit [BEq C] in
theorem segmentAt_snoc {captures : List (ℕ × C)} (hne : captures ≠ []) (start : ℕ) (centerHz : C)
    (i : ℕ) :
    segmentAt (captures ++ [(start, centerHz)]) i =
      if start ≤ i then some (start, centerHz) else segmentAt captures i := by
  unfold segmentAt
  rw [List.tail_append_of_ne_nil hne, List.reverse_append, List.reverse_singleton,
    List.singleton_append, List.find?_cons]
  by_cases hle : start ≤ i
  · simp [hle]
  · simp [hle]

/-- A recording whose samples behind the first segment are labelled as `ok` allows.  Sample `i`
is at position `off + i`. -/
structure Recorded (ok : ℕ → C → Prop) (off : ℕ) (capture : Capture α C) : Prop where
  nonempty : capture.writer.captures ≠ []
  starts : ∀ segment ∈ capture.writer.captures, segment.1 ≤ capture.writer.data.length
  last : capture.writer.captures.tail ≠ [] →
    ∃ start, capture.writer.captures.getLast? = some (start, capture.centerHz)
  labels : ∀ i < capture.writer.data.length, ∀ segment,
    segmentAt capture.writer.captures i = some segment → ok (off + i) segment.2

variable {ok : ℕ → C → Prop} {off : ℕ} {capture : Capture α C}

omit [BEq C] in
theorem addCapture_data (w : SigmfWriter α C) (centerHz : C) :
    (w.addCapture centerHz).data = w.data := by
  unfold SigmfWriter.addCapture
  split
  · split <;> rfl
  · rfl

omit [BEq C] in
theorem Recorded.addCapture (hrecorded : Recorded ok off capture) (centerHz : C) :
    Recorded ok off { writer := capture.writer.addCapture centerHz, centerHz := centerHz } := by
  obtain ⟨⟨data, captures⟩, current⟩ := capture
  obtain ⟨hne, hstarts, -, hlabels⟩ := hrecorded
  obtain ⟨init, ⟨start, frequency⟩, rfl⟩ := (List.eq_nil_or_concat captures).resolve_left hne
  rw [List.concat_eq_append] at hne hstarts hlabels ⊢
  unfold SigmfWriter.addCapture SigmfWriter.samplesWritten
  simp only [List.getLast?_append, List.getLast?_singleton, Option.some_or]
  by_cases hempty : start = data.length
  · -- the last segment holds no sample yet, so only its label changes
    rw [if_pos hempty, List.dropLast_concat]
    refine ⟨by simp, ?_, ?_, ?_⟩
    · intro segment hsegment
      rcases List.mem_append.mp hsegment with h | h
      · exact hstarts segment (List.mem_append_left _ h)
      · rw [List.mem_singleton.mp h]
        exact hempty.le
    · intro _
      exact ⟨start, by simp⟩
    · intro i hi segment hsegment
      refine hlabels i hi segment ?_
      cases init with
      | nil => simp [segmentAt] at hsegment
      | cons head init =>
        have hlate : ¬ start ≤ i := by
          simp only at hi
          omega
        rw [segmentAt_snoc (by simp), if_neg hlate] at hsegment ⊢
        exact hsegment
  · rw [if_neg hempty]
    refine ⟨by simp, ?_, ?_, ?_⟩
    · intro segment hsegment
      rcases List.mem_append.mp hsegment with h | h
      · exact hstarts segment h
      · rw [List.mem_singleton.mp h]
    · intro _
      exact ⟨data.length, by simp⟩
    · intro i hi segment hsegment
      have hlate : ¬ data.length ≤ i := Nat.not_le.mpr hi
      rw [segmentAt_snoc hne, if_neg hlate] at hsegment
      exact hlabels i hi segment hsegment

omit [BEq C] in
theorem Recorded.writeBlock (hrecorded : Recorded ok off capture) {block : List α}
    (hblock : ∀ i, capture.writer.data.length ≤ i → i < capture.writer.data.length + block.length →
      ok (off + i) capture.centerHz) :
    Recorded ok off { capture with writer := capture.writer.writeBlock block } := by
  obtain ⟨hne, hstarts, hlast, hlabels⟩ := hrecorded
  have hlength : (capture.writer.writeBlock block).data.length =
      capture.writer.data.length + block.length := List.length_append
  refine ⟨hne, ?_, hlast, ?_⟩
  · intro segment hsegment
    rw [hlength]
    exact (hstarts segment hsegment).trans (Nat.le_add_right ..)
  · intro i hi segment hsegment
    rw [hlength] at hi
    by_cases hold : i < capture.writer.data.length
    · exact hlabels i hold segment hsegment
    · -- every segment has begun by now, so the sample lies in the last one
      have hge : capture.writer.data.length ≤ i := Nat.not_lt.mp hold
      have htail : capture.writer.captures.tail ≠ [] := by
        intro hnil
        have hsome : segmentAt capture.writer.captures i = some segment := hsegment
        rw [segmentAt, hnil] at hsome
        simp at hsome
      obtain ⟨start, hstart⟩ := hlast htail
      obtain ⟨init, hcaptures⟩ := List.getLast?_eq_some_iff.mp hstart
      have hinit : init ≠ [] := by
        rintro rfl
        rw [hcaptures] at htail
        simp at htail
      have hle : start ≤ i :=
        (hstarts (start, capture.centerHz) (by rw [hcaptures]; simp)).trans hge
      have hsome : segmentAt capture.writer.captures i = some segment := hsegment
      rw [hcaptures, segmentAt_snoc hinit, if_pos hle] at hsome
      obtain rfl := Option.some.inj hsome
      exact hblock i hge hi

/-- What a block has to satisfy to be recorded: the marks give an allowed centre to each of its
positions. -/
structure Covers (ok : ℕ → C → Prop) (marks : Marks C) (position count : ℕ) : Prop where
  sorted : Marks.Sorted marks.list
  allowed : ∀ p, position ≤ p → p < position + count → ok p (marks.centerAt p)
  same : ∀ p a b, Same a b → ok p b → ok p a

variable [PartialEquivBEq C]

theorem emitRun_spec {marks : Marks C} {position : ℕ} {samples : List α}
    (hrecorded : Recorded ok off capture) (hposition : position = off + capture.writer.data.length)
    (hcovers : Covers ok marks position samples.length) (hne : samples ≠ []) :
    Recorded ok off (emitRun marks capture position samples).1 ∧
      (emitRun marks capture position samples).1.writer.data =
        capture.writer.data ++ samples.take (emitRun marks capture position samples).2 ∧
      0 < (emitRun marks capture position samples).2 ∧
      (emitRun marks capture position samples).2 ≤ samples.length := by
  have hpos : 0 < samples.length := List.length_pos_iff.mpr hne
  let take := (marks.nextAfter position).elim samples.length
    fun until₀ ↦ min (until₀ - position) samples.length
  have htake : 0 < take ∧ take ≤ samples.length ∧
      ∀ until₀, marks.nextAfter position = some until₀ → position + take ≤ until₀ := by
    cases hnext : marks.nextAfter position with
    | none => simp [take, hnext, hpos]
    | some until₀ =>
      have hlt := Marks.lt_of_nextAfter hnext
      have hvalue : take = min (until₀ - position) samples.length := by simp [take, hnext]
      refine ⟨by omega, by omega, ?_⟩
      intro other hother
      obtain rfl := Option.some.inj hother
      omega
  let retuned : Capture α C := if marks.centerAt position != capture.centerHz
    then { writer := capture.writer.addCapture (marks.centerAt position),
           centerHz := marks.centerAt position } else capture
  have hretuned : Recorded ok off retuned ∧ retuned.writer.data = capture.writer.data ∧
      Same retuned.centerHz (marks.centerAt position) := by
    simp only [retuned]
    split
    case isTrue => exact ⟨hrecorded.addCapture _, addCapture_data _ _, Same.refl _⟩
    case isFalse hsame =>
      have hequal : (marks.centerAt position == capture.centerHz) = true := by
        simpa [bne] using hsame
      exact ⟨hrecorded, rfl, Or.inr (PartialEquivBEq.symm hequal)⟩
  obtain ⟨hretuned, hdata, hcenter⟩ := hretuned
  have hlength : (samples.take take).length = take := by
    rw [List.length_take]
    omega
  change Recorded ok off { retuned with writer := retuned.writer.writeBlock (samples.take take) } ∧
    (retuned.writer.writeBlock (samples.take take)).data = _ ∧ 0 < take ∧ take ≤ samples.length
  refine ⟨hretuned.writeBlock ?_, by rw [← hdata]; rfl, htake.1, htake.2.1⟩
  intro i hge hlt
  rw [hdata, hlength] at hlt
  rw [hdata] at hge
  have hrun : marks.centerAt (off + i) = marks.centerAt position := by
    apply Marks.centerAt_of_nextAfter hcovers.sorted (by omega)
    intro until₀ huntil
    have := htake.2.2 until₀ huntil
    omega
  apply hcovers.same (off + i) _ _ hcenter
  rw [← hrun]
  exact hcovers.allowed (off + i) (by omega) (by omega)

theorem emitLoop_spec {marks : Marks C} (fuel : ℕ) {capture : Capture α C} {position : ℕ}
    {samples : List α} (hfuel : samples.length ≤ fuel) (hrecorded : Recorded ok off capture)
    (hposition : position = off + capture.writer.data.length)
    (hcovers : Covers ok marks position samples.length) :
    Recorded ok off (emitLoop marks fuel capture position samples) ∧
      (emitLoop marks fuel capture position samples).writer.data =
        capture.writer.data ++ samples := by
  induction fuel generalizing capture position samples with
  | zero =>
    obtain rfl := List.length_eq_zero_iff.mp (Nat.le_zero.mp hfuel)
    exact ⟨hrecorded, (List.append_nil _).symm⟩
  | succ fuel ih =>
    rw [emitLoop]
    by_cases hempty : samples.length = 0
    · obtain rfl := List.length_eq_zero_iff.mp hempty
      exact ⟨hrecorded, (List.append_nil _).symm⟩
    · rw [if_neg hempty]
      have hne : samples ≠ [] := fun h ↦ hempty (by rw [h]; rfl)
      obtain ⟨hrun, hdata, hpos, hle⟩ := emitRun_spec hrecorded hposition hcovers hne
      have hlength : (emitRun marks capture position samples).1.writer.data.length =
          capture.writer.data.length + (emitRun marks capture position samples).2 := by
        rw [hdata, List.length_append, List.length_take, Nat.min_eq_left hle]
      have hrest : Covers ok marks (position + (emitRun marks capture position samples).2)
          (samples.drop (emitRun marks capture position samples).2).length := by
        refine ⟨hcovers.sorted, ?_, hcovers.same⟩
        intro p hge hlt
        rw [List.length_drop] at hlt
        exact hcovers.allowed p (by omega) (by omega)
      obtain ⟨hafter, hall⟩ := ih (by rw [List.length_drop]; omega) hrun
        (by rw [hlength, hposition, Nat.add_assoc]) hrest
      refine ⟨hafter, ?_⟩
      rw [hall, hdata, List.append_assoc, List.take_append_drop]

/-- `emit` writes the whole block, each sample under an allowed label. -/
theorem emit_spec (marks : Marks C) {position : ℕ} (samples : List α)
    (hrecorded : Recorded ok off capture)
    (hposition : position = off + capture.writer.data.length)
    (hcovers : Covers ok marks position samples.length) :
    Recorded ok off (emit marks capture position samples) ∧
      (emit marks capture position samples).writer.data = capture.writer.data ++ samples :=
  emitLoop_spec samples.length le_rfl hrecorded hposition hcovers

/-! ## The keeper -/

/-- Centre `c` is one the source does not tell from the one sample `p` was pushed with. -/
def Labelled (accepted : List (α × C)) (p : ℕ) (c : C) : Prop :=
  ∃ x, accepted[p]? = some x ∧ Same c x.2

theorem Labelled.same {accepted : List (α × C)} (p : ℕ) (a b : C) (hsame : Same a b)
    (hlabelled : Labelled accepted p b) : Labelled accepted p a := by
  obtain ⟨x, hx, hcenter⟩ := hlabelled
  exact ⟨x, hx, hsame.trans hcenter⟩

omit [PartialEquivBEq C] in
theorem Labelled.append {accepted : List (α × C)} {p : ℕ} {c : C}
    (hlabelled : Labelled accepted p c) (more : List (α × C)) :
    Labelled (accepted ++ more) p c := by
  obtain ⟨x, hx, hcenter⟩ := hlabelled
  refine ⟨x, ?_, hcenter⟩
  rw [List.getElem?_append_left (List.getElem?_eq_some_iff.mp hx).1, hx]

/-- The first position a capture holds. -/
def Taking.from₀ (taking : Taking α C) (capacity : ℕ) : ℕ := taking.begun - min capacity taking.begun

/-- What a capture holds after `stop` samples were drained. -/
structure Content (accepted : List (α × C)) (capacity : ℕ) (taking : Taking α C) (stop : ℕ) :
    Prop where
  begun_le : taking.begun ≤ stop
  stop_le : stop ≤ accepted.length
  data : taking.capture.writer.data =
    ((accepted.map Prod.fst).take stop).drop (taking.from₀ capacity)
  recorded : Recorded (Labelled accepted) (taking.from₀ capacity) taking.capture

omit [BEq C] [PartialEquivBEq C] in
theorem Recorded.mono {ok' : ℕ → C → Prop} (hrecorded : Recorded ok off capture)
    (hok : ∀ p c, ok p c → ok' p c) : Recorded ok' off capture :=
  ⟨hrecorded.nonempty, hrecorded.starts, hrecorded.last,
    fun i hi segment hsegment ↦ hok _ _ (hrecorded.labels i hi segment hsegment)⟩

omit [BEq C] [PartialEquivBEq C] in
theorem take_map_append {accepted more : List (α × C)} {stop : ℕ} (hstop : stop ≤ accepted.length) :
    ((accepted ++ more).map Prod.fst).take stop = (accepted.map Prod.fst).take stop := by
  rw [List.map_append, List.take_append_of_le_length (by rwa [List.length_map])]

omit [PartialEquivBEq C] in
theorem Content.append {accepted : List (α × C)} {capacity : ℕ} {taking : Taking α C} {stop : ℕ}
    (hcontent : Content accepted capacity taking stop) (more : List (α × C)) :
    Content (accepted ++ more) capacity taking stop := by
  obtain ⟨hbegun, hstop, hdata, hrecorded⟩ := hcontent
  refine ⟨hbegun, ?_, ?_, hrecorded.mono fun p c h ↦ h.append more⟩
  · rw [List.length_append]
    omega
  · rw [take_map_append hstop]
    exact hdata

/-- The keeper's books over the samples it has drained.  Its marks decide every position below
`visible` that it still holds. -/
structure KeeperOk (capacity : ℕ) (accepted : List (α × C)) (visible : ℕ) (k : Keeper α C) :
    Prop where
  history : k.history.Holds capacity ((accepted.map Prod.fst).take k.history.next)
  next_le : k.history.next ≤ visible
  visible_le : visible ≤ accepted.length
  sorted : Marks.Sorted k.marks.list
  labels : ∀ p, k.history.first ≤ p → p < visible → Labelled accepted p (k.marks.centerAt p)
  capture : ∀ taking, k.capture = some taking →
    Content accepted capacity taking k.history.next
  closed : ∀ done ∈ k.closed, Content accepted capacity done.1 done.2

variable {capacity visible : ℕ} {accepted : List (α × C)} {k : Keeper α C}

omit [PartialEquivBEq C] in
theorem KeeperOk.filled_eq (hok : KeeperOk capacity accepted visible k) :
    k.history.filled = min capacity k.history.next := by
  have hnext := hok.next_le
  have hvisible := hok.visible_le
  rw [hok.history.filled_eq, List.length_take, List.length_map]
  omega

omit [PartialEquivBEq C] in
theorem KeeperOk.close (hok : KeeperOk capacity accepted visible k) :
    KeeperOk capacity accepted visible k.close := by
  unfold Keeper.close
  cases hcapture : k.capture with
  | none => exact hok
  | some taking =>
    refine ⟨hok.history, hok.next_le, hok.visible_le, hok.sorted, hok.labels, by simp, ?_⟩
    intro done hdone
    rcases List.mem_append.mp hdone with h | h
    · exact hok.closed done h
    · rw [List.mem_singleton.mp h]
      exact hok.capture taking hcapture

omit [BEq C] [PartialEquivBEq C] in
theorem close_history (k : Keeper α C) : k.close.history = k.history ∧ k.close.marks = k.marks ∧
    k.close.reading = k.reading := by
  unfold Keeper.close
  cases k.capture <;> exact ⟨rfl, rfl, rfl⟩

/-- A recording without samples takes what the ring holds. -/
theorem KeeperOk.begin_empty (hok : KeeperOk capacity accepted visible k) {empty : Capture α C}
    (hempty : ∀ off, Recorded (Labelled accepted) off empty) (hdata : empty.writer.data = []) :
    KeeperOk capacity accepted visible { k with
      capture := some ⟨emit k.marks (emit k.marks empty k.history.first k.history.window.1)
        (k.history.first + k.history.window.1.length) k.history.window.2, k.history.next⟩ } := by
  have hfilled := hok.filled_eq
  obtain ⟨hhistory, hnext, hvisible, hsorted, hlabels, -, hclosed⟩ := hok
  let h := k.history
  let from₀ := h.next - min capacity h.next
  have hfirst : h.first = from₀ := by
    simp only [History.first, from₀, h, hfilled]
  have hlength : ((accepted.map Prod.fst).take h.next).length = h.next := by
    rw [List.length_take, List.length_map]
    exact Nat.min_eq_left (hnext.trans hvisible)
  have hwindow : h.window.1 ++ h.window.2 =
      ((accepted.map Prod.fst).take h.next).drop from₀ := by
    rw [History.window_eq hhistory, List.rtake, hlength, hfilled]
  have htotal : h.window.1.length + h.window.2.length = h.next - from₀ := by
    rw [← List.length_append, hwindow, List.length_drop, hlength]
  have hcovers (position count : ℕ) (hlow : from₀ ≤ position)
      (hhigh : position + count ≤ h.next) :
      Covers (Labelled accepted) k.marks position count :=
    ⟨hsorted, fun p hge hlt ↦ hlabels p (hfirst ▸ hlow.trans hge)
      ((hlt.trans_le hhigh).trans_le hnext), Labelled.same⟩
  obtain ⟨hhead, hheadData⟩ := emit_spec k.marks h.window.1 (hempty from₀)
    (by rw [hfirst, hdata]; rfl : h.first = from₀ + empty.writer.data.length)
    (hcovers _ _ hfirst.ge (by rw [hfirst]; omega))
  have hmiddle : h.first + h.window.1.length =
      from₀ + (emit k.marks empty h.first h.window.1).writer.data.length := by
    rw [hheadData, hfirst, hdata]
    rfl
  obtain ⟨htail, htailData⟩ := emit_spec k.marks h.window.2 hhead hmiddle
    (hcovers _ _ (by rw [hfirst]; omega) (by rw [hfirst]; omega))
  refine ⟨hhistory, hnext, hvisible, hsorted, hlabels, ?_, hclosed⟩
  intro taking htaking
  obtain rfl := Option.some.inj htaking
  refine ⟨le_rfl, hnext.trans hvisible, ?_, htail⟩
  change (emit k.marks (emit k.marks empty h.first h.window.1)
    (h.first + h.window.1.length) h.window.2).writer.data = _
  rw [htailData, hheadData, hdata]
  exact hwindow

theorem KeeperOk.begin (hok : KeeperOk capacity accepted visible k) (centerHz : C) :
    KeeperOk capacity accepted visible (k.begin centerHz) := by
  apply hok.close.begin_empty _ rfl
  intro off
  constructor
  · exact List.cons_ne_nil _ _
  · simp [SigmfWriter.create]
  · simp [SigmfWriter.create]
  · simp [SigmfWriter.create]

/-- Draining the next samples of the feed keeps the books, one slice at a time. -/
theorem KeeperOk.drainSlice (hok : KeeperOk capacity accepted visible k) {slice : List α}
    (hslice : (accepted.map Prod.fst).take (k.history.next + slice.length) =
      (accepted.map Prod.fst).take k.history.next ++ slice)
    (hvisible : k.history.next + slice.length ≤ visible) :
    KeeperOk capacity accepted visible (k.drainSlice slice) ∧
      (k.drainSlice slice).history.next = k.history.next + slice.length ∧
      (k.drainSlice slice).marks.list.Sublist k.marks.list ∧
      ∀ p, (k.drainSlice slice).history.first ≤ p →
        (k.drainSlice slice).marks.centerAt p = k.marks.centerAt p := by
  by_cases hempty : slice = []
  · subst hempty
    exact ⟨hok, rfl, List.Sublist.refl _, fun _ _ ↦ rfl⟩
  have hdrained : k.drainSlice slice = { k with
      history := k.history.append slice
      capture := k.capture.map fun taking ↦
        { taking with capture := emit k.marks taking.capture k.history.next slice }
      marks := k.marks.trim (k.history.append slice).first } := by
    unfold Keeper.drainSlice
    rw [if_neg (by simpa using hempty)]
  rw [hdrained]
  have hfilled := hok.filled_eq
  have hvisibleLe := hok.visible_le
  have hhistory : (k.history.append slice).Holds capacity
      ((accepted.map Prod.fst).take (k.history.next + slice.length)) := by
    rw [hslice]
    exact hok.history.append slice
  have hnext : (k.history.append slice).next = k.history.next + slice.length := rfl
  have hmoved : k.history.first ≤ (k.history.append slice).first := by
    have hfilled' : (k.history.append slice).filled =
        min capacity (k.history.next + slice.length) := by
      rw [hhistory.filled_eq, List.length_take, List.length_map]
      omega
    simp only [History.first, hnext, hfilled, hfilled']
    omega
  refine ⟨⟨hhistory, hvisible, hvisibleLe, ?_, ?_, ?_, hok.closed⟩, hnext,
    Marks.trim_sublist _ _, fun p hp ↦ Marks.centerAt_trim hp⟩
  · exact List.Pairwise.sublist (Marks.trim_sublist _ _) hok.sorted
  · intro p hfirst hp
    rw [Marks.centerAt_trim hfirst]
    exact hok.labels p (hmoved.trans hfirst) hp
  · intro taking htaking
    obtain ⟨before, hbefore, rfl⟩ := Option.map_eq_some_iff.mp htaking
    obtain ⟨hbegun, -, hdata, hrecorded⟩ := hok.capture before hbefore
    have hfrom : before.from₀ capacity ≤ k.history.next := by
      unfold Taking.from₀
      omega
    have hposition : k.history.next =
        before.from₀ capacity + before.capture.writer.data.length := by
      rw [hdata, List.length_drop, List.length_take, List.length_map]
      omega
    have hcovers : Covers (Labelled accepted) k.marks k.history.next slice.length := by
      refine ⟨hok.sorted, fun p hge hlt ↦ hok.labels p ?_ (by omega), Labelled.same⟩
      unfold History.first
      omega
    obtain ⟨hafter, hafterData⟩ := emit_spec k.marks slice hrecorded hposition hcovers
    refine ⟨hbegun.trans (Nat.le_add_right ..), hvisible.trans hvisibleLe, ?_, hafter⟩
    change (emit k.marks before.capture k.history.next slice).writer.data =
      ((accepted.map Prod.fst).take (k.history.next + slice.length)).drop (before.from₀ capacity)
    have hlong : before.from₀ capacity ≤ ((accepted.map Prod.fst).take k.history.next).length := by
      rw [List.length_take, List.length_map]
      omega
    rw [hafterData, hdata, hslice, List.drop_append_of_le_length hlong]

/-! ## Runs -/

structure Invariant (config : Config C) (s : State α C) : Prop where
  pushed_eq : s.pushed = s.accepted.length
  feed : s.samples = (s.accepted.map Prod.fst).drop s.keeper.history.next
  keeper : KeeperOk config.capacity s.accepted s.keeper.history.next s.keeper
  sorted : Marks.Sorted (s.keeper.marks.list ++ s.marks)
  below : ∀ mark ∈ s.keeper.marks.list ++ s.marks, mark.at₀ ≤ s.pushed
  recent : ∀ mark ∈ s.marks, s.keeper.history.next ≤ mark.at₀
  labels : ∀ p, s.keeper.history.first ≤ p → p < s.accepted.length →
    Labelled s.accepted p
      (Marks.centerAt ⟨s.keeper.marks.baseHz, s.keeper.marks.list ++ s.marks⟩ p)
  current : Marks.centerAt ⟨s.keeper.marks.baseHz, s.keeper.marks.list ++ s.marks⟩ s.pushed =
    s.centerHz
  offering : ∀ samples centerHz, s.offering = some (samples, centerHz) → Same s.centerHz centerHz
  reading : ∀ count, s.keeper.reading = some count → count ≤ s.samples.length

variable {config : Config C} {s : State α C}

theorem Invariant.push (hinv : Invariant config s) (samples : List α) (centerHz : C) :
    Invariant config (push config s samples centerHz) := by
  unfold TimeMachine.push
  split
  · exact hinv
  split
  · exact hinv
  split
  · split
    · -- the mark stands at the end of what has been accepted
      have hnext : s.keeper.history.next ≤ s.pushed := by
        rw [hinv.pushed_eq]
        exact hinv.keeper.visible_le
      refine ⟨hinv.pushed_eq, hinv.feed, hinv.keeper, ?_, ?_, ?_, ?_, ?_, ?_, hinv.reading⟩
      · rw [← List.append_assoc]
        exact List.pairwise_append.mpr ⟨hinv.sorted, List.pairwise_singleton _ _,
          fun mark hmark last hlast ↦ by
            rw [List.mem_singleton.mp hlast]
            exact hinv.below mark hmark⟩
      · intro mark hmark
        rw [← List.append_assoc] at hmark
        rcases List.mem_append.mp hmark with h | h
        · exact hinv.below mark h
        · rw [List.mem_singleton.mp h]
      · intro mark hmark
        rcases List.mem_append.mp hmark with h | h
        · exact hinv.recent mark h
        · rw [List.mem_singleton.mp h]
          exact hnext
      · intro p hfirst hp
        rw [← List.append_assoc, Marks.centerAt_append_of_lt]
        · exact hinv.labels p hfirst hp
        · intro mark hmark
          rw [List.mem_singleton.mp hmark, hinv.pushed_eq]
          exact hp
      · rw [← List.append_assoc, Marks.centerAt_snoc, if_pos le_rfl]
      · intro block center hblock
        obtain ⟨-, rfl⟩ := Prod.mk.inj (Option.some.inj hblock)
        exact Same.refl _
    · exact ⟨hinv.pushed_eq, hinv.feed, hinv.keeper, hinv.sorted, hinv.below, hinv.recent,
        hinv.labels, hinv.current, hinv.offering, hinv.reading⟩
  · next hsame =>
    refine ⟨hinv.pushed_eq, hinv.feed, hinv.keeper, hinv.sorted, hinv.below, hinv.recent,
      hinv.labels, hinv.current, ?_, hinv.reading⟩
    intro block center hblock
    obtain ⟨-, rfl⟩ := Prod.mk.inj (Option.some.inj hblock)
    have hequal : (centerHz == s.centerHz) = true := by simpa [bne] using hsame
    exact Or.inr (PartialEquivBEq.symm hequal)

omit [PartialEquivBEq C] in
theorem KeeperOk.append (hok : KeeperOk capacity accepted visible k) (more : List (α × C)) :
    KeeperOk capacity (accepted ++ more) visible k := by
  have hvisible := hok.visible_le
  refine ⟨?_, hok.next_le, ?_, hok.sorted, fun p hfirst hp ↦ (hok.labels p hfirst hp).append more,
    fun taking htaking ↦ (hok.capture taking htaking).append more,
    fun done hdone ↦ (hok.closed done hdone).append more⟩
  · rw [take_map_append (hok.next_le.trans hvisible)]
    exact hok.history
  · rw [List.length_append]
    omega

omit [PartialEquivBEq C] in
theorem Invariant.offer (hinv : Invariant config s) : Invariant config (offer config s) := by
  unfold TimeMachine.offer
  cases hoffering : s.offering with
  | none => exact hinv
  | some block =>
    obtain ⟨samples, centerHz⟩ := block
    have hsame := hinv.offering samples centerHz hoffering
    have hnext : s.keeper.history.next ≤ s.accepted.length := hinv.keeper.visible_le
    dsimp only
    split
    · -- from here on every mark is past, so the tap's own centre labels the block
      have hlate (p : ℕ) (hp : s.pushed ≤ p) :
          Marks.centerAt ⟨s.keeper.marks.baseHz, s.keeper.marks.list ++ s.marks⟩ p =
            s.centerHz := by
        rw [← hinv.current]
        apply Marks.centerAt_congr
        intro mark hmark
        have hbelow := hinv.below mark hmark
        exact ⟨fun _ ↦ hbelow, fun h ↦ h.trans hp⟩
      refine ⟨?_, ?_, hinv.keeper.append _, hinv.sorted, ?_, hinv.recent, ?_, ?_, by simp, ?_⟩
      · simp only [hinv.pushed_eq, List.length_append, List.length_map]
      · rw [List.map_append, List.drop_append_of_le_length (by rwa [List.length_map]),
          ← hinv.feed, List.map_map]
        exact congrArg (s.samples ++ ·) (List.map_id samples).symm
      · intro mark hmark
        exact (hinv.below mark hmark).trans (Nat.le_add_right ..)
      · intro p hfirst hp
        by_cases hold : p < s.accepted.length
        · exact (hinv.labels p hfirst hold).append _
        · have hge : s.accepted.length ≤ p := Nat.not_lt.mp hold
          have hin : p - s.accepted.length < samples.length := by
            rw [List.length_append, List.length_map] at hp
            omega
          refine ⟨(samples[p - s.accepted.length], centerHz), ?_, ?_⟩
          · rw [List.getElem?_append_right hge, List.getElem?_map, List.getElem?_eq_getElem hin]
            rfl
          · rw [hlate p (by rw [hinv.pushed_eq]; exact hge)]
            exact hsame
      · exact hlate _ (Nat.le_add_right ..)
      · intro count hcount
        rw [List.length_append]
        exact (hinv.reading count hcount).trans (Nat.le_add_right ..)
    · exact ⟨hinv.pushed_eq, hinv.feed, hinv.keeper, hinv.sorted, hinv.below, hinv.recent,
        hinv.labels, hinv.current, by simp, hinv.reading⟩

omit [BEq C] [PartialEquivBEq C] in
theorem foldl_push (marks : Marks C) (list : List (CenterMark C)) :
    list.foldl Marks.push marks = ⟨marks.baseHz, marks.list ++ list⟩ := by
  induction list generalizing marks with
  | nil => simp
  | cons mark list ih =>
    rw [List.foldl_cons, ih]
    simp [Marks.push]

omit [PartialEquivBEq C] in
theorem drainSlice_reading (k : Keeper α C) (slice : List α) :
    (k.drainSlice slice).reading = k.reading := by
  unfold Keeper.drainSlice
  split <;> rfl

/-- The slices of a chunk are the next samples accepted. -/
theorem Invariant.drain (hinv : Invariant config s) {count : ℕ}
    (hcount : s.keeper.reading = some count) (wrap : ℕ) :
    Invariant config (drain s count wrap) := by
  have hle := hinv.reading count hcount
  have hnextLe : s.keeper.history.next ≤ s.accepted.length := hinv.keeper.visible_le
  have hfeedLen : s.samples.length = s.accepted.length - s.keeper.history.next := by
    rw [hinv.feed, List.length_drop, List.length_map]
  let all := s.accepted.map Prod.fst
  let chunk := s.samples.take count
  let ready : Keeper α C := { s.keeper with
    marks := ⟨s.keeper.marks.baseHz, s.keeper.marks.list ++ s.marks⟩
    reading := none }
  have hready : KeeperOk config.capacity s.accepted s.accepted.length ready :=
    ⟨hinv.keeper.history, hnextLe, le_rfl, hinv.sorted, hinv.labels, hinv.keeper.capture,
      hinv.keeper.closed⟩
  have hchunkLen : chunk.length = count := by
    rw [List.length_take]
    omega
  have hsplit : (chunk.take wrap).length + (chunk.drop wrap).length = count := by
    rw [← List.length_append, List.take_append_drop, hchunkLen]
  have htake (m : ℕ) (hm : m ≤ count) :
      all.take (s.keeper.history.next + m) = all.take s.keeper.history.next ++ chunk.take m := by
    have hsamples : s.samples = all.drop s.keeper.history.next := hinv.feed
    simp only [chunk]
    rw [List.take_add, hsamples, List.take_take, Nat.min_eq_left hm]
  have hfirstSlice : all.take (ready.history.next + (chunk.take wrap).length) =
      all.take ready.history.next ++ chunk.take wrap := by
    have hm : (chunk.take wrap).length ≤ count := by omega
    change all.take (s.keeper.history.next + _) = _
    rw [htake _ hm]
    congr 1
    rw [List.length_take, ← List.take_take, List.take_length]
  obtain ⟨hfirst, hfirstNext, hfirstSub, hfirstCenter⟩ :=
    hready.drainSlice hfirstSlice (by change s.keeper.history.next + _ ≤ _; omega)
  have hreadyNext : ready.history.next = s.keeper.history.next := rfl
  have hsecondSlice : all.take ((ready.drainSlice (chunk.take wrap)).history.next +
      (chunk.drop wrap).length) =
      all.take (ready.drainSlice (chunk.take wrap)).history.next ++ chunk.drop wrap := by
    rw [hfirstNext, Nat.add_assoc, hsplit, hfirstSlice, hreadyNext, htake count le_rfl,
      List.append_assoc, List.take_append_drop, ← hchunkLen, List.take_length]
  obtain ⟨hsecond, hsecondNext, hsecondSub, hsecondCenter⟩ :=
    hfirst.drainSlice hsecondSlice (by rw [hfirstNext, hreadyNext]; omega)
  let final := (ready.drainSlice (chunk.take wrap)).drainSlice (chunk.drop wrap)
  have hfinalNext : final.history.next = s.keeper.history.next + count := by
    simp only [final]
    rw [hsecondNext, hfirstNext, Nat.add_assoc, hsplit]
  have hdrained : TimeMachine.drain s count wrap =
      { s with samples := s.samples.drop count, marks := [], keeper := final } := by
    unfold TimeMachine.drain
    rw [foldl_push]
  have hreading : final.reading = none := by
    simp only [final]
    rw [drainSlice_reading, drainSlice_reading]
  have hsub : final.marks.list.Sublist (s.keeper.marks.list ++ s.marks) :=
    hsecondSub.trans hfirstSub
  rw [hdrained]
  refine ⟨hinv.pushed_eq, ?_, ?_, ?_, ?_, by simp, ?_, ?_, hinv.offering, ?_⟩
  · change s.samples.drop count = (s.accepted.map Prod.fst).drop final.history.next
    rw [hfinalNext, hinv.feed, List.drop_drop]
  · exact ⟨hsecond.history, le_rfl, hsecond.next_le, hsecond.sorted,
      fun p hp hlt ↦ hsecond.labels p hp (hlt.trans_le hsecond.next_le), hsecond.capture,
      hsecond.closed⟩
  · rw [List.append_nil]
    exact hsecond.sorted
  · intro mark hmark
    rw [List.append_nil] at hmark
    exact hinv.below mark (hsub.mem hmark)
  · intro p hp hlt
    rw [List.append_nil]
    exact hsecond.labels p hp hlt
  · rw [List.append_nil]
    change final.marks.centerAt s.pushed = s.centerHz
    have hhigh (h : History α) (hle : h.next ≤ s.accepted.length) : h.first ≤ s.pushed := by
      unfold History.first
      rw [hinv.pushed_eq]
      omega
    rw [← hinv.current, hsecondCenter _ (hhigh _ hsecond.next_le),
      hfirstCenter _ (hhigh _ hfirst.next_le)]
  · intro other hother
    change final.reading = some other at hother
    rw [hreading] at hother
    cases hother

omit [PartialEquivBEq C] in
theorem Invariant.keep (hinv : Invariant config s) {keeper : Keeper α C}
    (hhistory : keeper.history = s.keeper.history) (hmarks : keeper.marks = s.keeper.marks)
    (hreading : ∀ count, keeper.reading = some count → count ≤ s.samples.length)
    (hok : KeeperOk config.capacity s.accepted s.keeper.history.next keeper) :
    Invariant config { s with keeper := keeper } := by
  obtain ⟨hpushed, hfeed, -, hsorted, hbelow, hrecent, hlabels, hcurrent, hoffering, -⟩ := hinv
  refine ⟨hpushed, ?_, ?_, ?_, ?_, ?_, ?_, ?_, hoffering, hreading⟩
  all_goals dsimp only; first | rw [hhistory, hmarks] | rw [hhistory] | rw [hmarks]
  all_goals assumption

theorem Invariant.step (hinv : Invariant config s) {t : State α C} (event : Event α C)
    (hstep : step config s event = some t) : Invariant config t := by
  cases event with
  | push samples centerHz =>
    simp only [TimeMachine.step] at hstep
    split at hstep
    · cases hstep
    · obtain rfl := Option.some.inj hstep
      exact hinv.push samples centerHz
  | offer =>
    obtain rfl := Option.some.inj hstep
    exact hinv.offer
  | look =>
    simp only [TimeMachine.step] at hstep
    split at hstep
    · cases hstep
    · split at hstep
      · obtain rfl := Option.some.inj hstep
        exact hinv
      · obtain rfl := Option.some.inj hstep
        have hok := hinv.keeper
        refine hinv.keep rfl rfl ?_ ⟨hok.history, hok.next_le, hok.visible_le, hok.sorted,
          hok.labels, hok.capture, hok.closed⟩
        intro count hcount
        exact (Option.some.inj hcount).ge
  | drain wrap =>
    obtain ⟨count, hcount, rfl⟩ := Option.map_eq_some_iff.mp hstep
    exact hinv.drain hcount wrap
  | begin centerHz =>
    simp only [TimeMachine.step] at hstep
    split at hstep
    · cases hstep
    · obtain rfl := Option.some.inj hstep
      obtain ⟨hhistory, hmarks, hreading⟩ := close_history s.keeper
      refine hinv.keep hhistory hmarks ?_ (hinv.keeper.begin centerHz)
      intro count hcount
      exact hinv.reading count (hreading ▸ hcount)
  | close =>
    simp only [TimeMachine.step] at hstep
    split at hstep
    · cases hstep
    · obtain rfl := Option.some.inj hstep
      obtain ⟨hhistory, hmarks, hreading⟩ := close_history s.keeper
      refine hinv.keep hhistory hmarks ?_ hinv.keeper.close
      intro count hcount
      exact hinv.reading count (hreading ▸ hcount)

omit [PartialEquivBEq C] in
theorem Invariant.start (config : Config C) (hcapacity : 0 < config.capacity) (silence : α) :
    Invariant config (start config silence) where
  pushed_eq := rfl
  feed := rfl
  keeper := ⟨⟨List.length_replicate .., hcapacity, (Nat.min_zero _).symm, rfl,
    by simp [TimeMachine.start]⟩, le_rfl, le_rfl, List.Pairwise.nil, by simp [TimeMachine.start],
    by simp [TimeMachine.start], by simp [TimeMachine.start]⟩
  sorted := List.Pairwise.nil
  below := by simp [TimeMachine.start]
  recent := by simp [TimeMachine.start]
  labels := by simp [TimeMachine.start]
  current := rfl
  offering := by simp [TimeMachine.start]
  reading := by simp [TimeMachine.start]

theorem invariant_of_run (config : Config C) (hcapacity : 0 < config.capacity) (silence : α)
    (events : List (Event α C)) {s : State α C} (hrun : run config silence events = some s) :
    Invariant config s := by
  induction events using List.reverseRecOn generalizing s with
  | nil =>
    obtain rfl := Option.some.inj hrun
    exact Invariant.start config hcapacity silence
  | append_singleton events event ih =>
    rw [run, List.foldlM_append] at hrun
    obtain ⟨middle, hmiddle, hlast⟩ := Option.bind_eq_some_iff.mp hrun
    exact (ih hmiddle).step event (by simpa using hlast)

/-- The captures of a state: those closed, each with how many samples had been drained when it
closed, and the one still open. -/
def State.captures (s : State α C) : List (Taking α C × ℕ) :=
  s.keeper.closed ++ (s.keeper.capture.map (·, s.keeper.history.next)).toList

/-- A capture holds the last samples drained before it began, as many as the ring keeps, and then
all drained until it closed; each behind the first segment carries the centre it was pushed with. -/
theorem capture_content (config : Config C) (hcapacity : 1 ≤ config.capacity) (silence : α)
    (events : List (Event α C)) (s : State α C) (hrun : run config silence events = some s)
    (taking : Taking α C) (stop : ℕ) (hmem : (taking, stop) ∈ s.captures) :
    let accepted := s.accepted.map Prod.fst
    let held := min config.capacity taking.begun
    taking.begun ≤ stop ∧ stop ≤ accepted.length ∧
      taking.capture.writer.data =
        (accepted.take taking.begun).rtake held ++ (accepted.take stop).drop taking.begun ∧
      ∀ i < taking.capture.writer.data.length, ∀ segment,
        segmentAt taking.capture.writer.captures i = some segment →
          ∃ x, s.accepted[taking.begun - held + i]? = some x ∧ Same segment.2 x.2 := by
  intro accepted held
  have hinv := invariant_of_run config hcapacity silence events hrun
  have hcontent : Content s.accepted config.capacity taking stop := by
    rcases List.mem_append.mp hmem with hclosed | hopen
    · exact hinv.keeper.closed (taking, stop) hclosed
    · obtain ⟨other, hother, heq⟩ := Option.map_eq_some_iff.mp (Option.mem_toList.mp hopen)
      obtain ⟨rfl, rfl⟩ := Prod.mk.inj heq
      exact hinv.keeper.capture other hother
  obtain ⟨hbegun, hstop, hdata, hrecorded⟩ := hcontent
  have hlength : (accepted.take taking.begun).length = taking.begun := by
    rw [List.length_take, List.length_map]
    omega
  have hsplit : accepted.take stop =
      accepted.take taking.begun ++ (accepted.take stop).drop taking.begun := by
    conv_lhs => rw [← List.take_append_drop taking.begun (accepted.take stop)]
    rw [List.take_take, Nat.min_eq_left hbegun]
  have hfrom : taking.from₀ config.capacity = taking.begun - held := rfl
  refine ⟨hbegun, by rw [List.length_map]; exact hstop, ?_, hrecorded.labels⟩
  rw [hdata, hsplit, hfrom, List.rtake, hlength,
    List.drop_append_of_le_length (by rw [hlength]; omega)]
  congr 1
  rw [← hsplit]

/-- A capture begun on three samples of history, over a retune and a refused block. -/
def retunedCapture : List (Event ℕ ℕ) :=
  [.push [1, 2, 3] 100, .offer, .look, .drain 2, .begin 99, .push [4, 5] 101, .offer,
    .push [6, 7, 8] 102, .offer, .push [9] 101, .offer, .look, .drain 1, .close]

theorem capture_content_retuned :
    ∃ s taking, run ⟨2, 4, 4, 100⟩ 0 retunedCapture = some s ∧ (taking, 6) ∈ s.captures ∧
      taking.capture.writer.data = [2, 3, 4, 5, 9] ∧
      taking.capture.writer.captures = [(0, 99), (2, 101)] ∧
      ∀ i < taking.capture.writer.data.length, ∀ segment,
        segmentAt taking.capture.writer.captures i = some segment →
          ∃ x, s.accepted[taking.begun - min 2 taking.begun + i]? = some x ∧
            Same segment.2 x.2 :=
  ⟨_, _, rfl, List.mem_singleton.mpr rfl, rfl, rfl,
    (capture_content ⟨2, 4, 4, 100⟩ (by decide) 0 retunedCapture _ rfl _ 6
      (List.mem_singleton.mpr rfl)).2.2.2⟩

end Sdrmm.TimeMachine
