import Sdrmm.Channels.DabEncoder
import Sdrmm.Lib.FrameRing

/-!
# The interleaver pair

The time interleaver sends each place of a fragment with a delay of its own, and the deinterleaver holds it back
for the rest of sixteen frames.
-/

namespace Sdrmm.Dab

open Conv7 (Soft)
open Lib.Checked (Halt index index_of_lt ok_bind mapM_eq_map)

/-- The delay of a place in the interleaver. -/
def delay (place : ℕ) : ℕ := map.getD (place % depth) 0

theorem delay_lt (place : ℕ) : delay place < depth := by
  have hall : ∀ i < depth, map.getD i 0 < depth := by decide
  exact hall _ (Nat.mod_lt _ (by decide))

theorem index_map (place : ℕ) : index map (place % depth) = .ok (delay place) :=
  index_of_lt (Nat.mod_lt _ (by decide)) 0

theorem index_of_getElem? {α : Type} {xs : List α} {i : ℕ} {x : α} (hi : xs[i]? = some x) :
    index xs i = .ok x := by
  rw [index, hi]

theorem length_getD_reverse {α : Type} {count : ℕ} {history : List (List α)} (blank : α)
    (hframes : ∀ frame ∈ history, frame.length = count) (age : ℕ) :
    (history.reverse.getD age (List.replicate count blank)).length = count := by
  rw [List.getD_eq_getElem?_getD]
  cases hage : history.reverse[age]? with
  | none => exact List.length_replicate
  | some frame => exact hframes frame (List.mem_reverse.mp (List.mem_of_getElem? hage))

/-! ## The sender -/

/-- What is sent with the last of some frames. -/
def sentOf (count : ℕ) (history : List (List Bool)) : List Bool :=
  (List.range count).map fun place ↦
    (history.reverse.getD (delay place) (List.replicate count false)).getD place false

structure Interleaving (count : ℕ) (history : List (List Bool)) (interleaver : TimeInterleaver) : Prop where
  ring : FrameRing.Holds (List.replicate count false) history interleaver.lines
  lines : interleaver.lines.length = depth
  position : interleaver.position = history.length % depth
  frames : ∀ frame ∈ history, frame.length = count

section Sender

variable {count : ℕ} {history : List (List Bool)} {interleaver : TimeInterleaver}

theorem interleaving_new (count : ℕ) : Interleaving count [] (.new count) where
  ring := FrameRing.holds_blank (by decide)
  lines := List.length_replicate
  position := rfl
  frames := fun _ hframe ↦ absurd hframe List.not_mem_nil

theorem Interleaving.push (hinterleaving : Interleaving count history interleaver) {fragment : List Bool}
    (hlength : fragment.length = count) :
    ∃ next, interleaver.push fragment = .ok (next, sentOf count (history ++ [fragment])) ∧
      Interleaving count (history ++ [fragment]) next := by
  obtain ⟨hring, hlines, hposition, hframes⟩ := hinterleaving
  have hpushed := hring.push fragment
  rw [hlines, ← hposition] at hpushed
  have hframes' : ∀ frame ∈ history ++ [fragment], frame.length = count := by
    intro frame hframe
    rcases List.mem_append.mp hframe with hold | hnew
    · exact hframes frame hold
    · rw [List.mem_singleton.mp hnew]
      exact hlength
  have hline : interleaver.lines[interleaver.position]? =
      some (history.reverse.getD (depth - 1) (List.replicate count false)) := by
    apply hring.at_line
    · rw [hlines]
      decide
    · rw [hposition, hlines, Nat.sub_self, Nat.add_zero]
  have hout : (List.range fragment.length).mapM (fun place ↦ do
      let delay ← index map (place % depth)
      index (← index (interleaver.lines.set interleaver.position fragment)
        ((interleaver.position + depth - delay) % depth)) place) =
      .ok (sentOf count (history ++ [fragment])) := by
    rw [hlength]
    apply mapM_eq_map
    intro place hplace
    have hlt := delay_lt place
    have hset : (interleaver.lines.set interleaver.position fragment).length = depth := by
      rw [List.length_set, hlines]
    have hage : (interleaver.lines.set interleaver.position
        fragment)[(interleaver.position + depth - delay place) % depth]? =
        some ((history ++ [fragment]).reverse.getD (delay place) (List.replicate count false)) := by
      apply hpushed.at_line
      · rw [hset]
        exact hlt
      · rw [hset, hposition, List.length_append, List.length_singleton]
        unfold depth at *
        omega
    rw [index_map, ok_bind, index_of_getElem? hage, ok_bind]
    apply index_of_lt
    rw [length_getD_reverse _ hframes']
    exact List.mem_range.mp hplace
  refine ⟨⟨interleaver.lines.set interleaver.position fragment, (interleaver.position + 1) % depth⟩, ?_, ?_⟩
  · rw [TimeInterleaver.push, index_of_getElem? hline, ok_bind,
      if_neg (by rw [length_getD_reverse _ hframes, hlength]; exact not_not.mpr rfl)]
    exact congrArg (· >>= _) hout
  · refine ⟨hpushed, ?_, ?_, hframes'⟩
    · rw [List.length_set, hlines]
    · rw [hposition, List.length_append, List.length_singleton, Nat.mod_add_mod]

end Sender

/-! ## The receiver -/

/-- What the deinterleaver gives with a fragment, from those before it. -/
def receivedOf (count : ℕ) (history : List (List Soft)) : List Soft :=
  (List.range count).map fun place ↦
    (history.reverse.getD (depth - 1 - delay place) (List.replicate count 0)).getD place 0

/-- The value that is taken out at a place. -/
def taken (position : ℕ) (lines : List (List Soft)) (place : ℕ) : Soft :=
  (lines.getD ((position + delay place) % depth) []).getD place 0

theorem taken_set {position place : ℕ} {lines : List (List Soft)} {line : List Soft} (value : Soft)
    (hline : lines[position]? = some line) {later : ℕ} (hlater : place < later) :
    taken position (lines.set position (line.set place value)) later = taken position lines later := by
  have hlt := (List.getElem?_eq_some_iff.mp hline).1
  simp only [taken, List.getD_eq_getElem?_getD]
  by_cases hsame : position = (position + delay later) % depth
  · rw [← hsame, List.getElem?_set_self hlt, hline, Option.getD_some, Option.getD_some,
      List.getElem?_set_ne (Nat.ne_of_lt hlater)]
  · rw [List.getElem?_set_ne hsame]

/-- The values are put in their places, and each takes out the one of its place. -/
theorem foldl_exchange {position : ℕ} (place : ℕ) (values : List Soft) {lines : List (List Soft)}
    {line : List Soft} (out : List Soft) (hline : lines[position]? = some line) (hroom : place + values.length ≤ line.length) :
    (values.zipIdx place).foldl (TimeDeinterleaver.exchange position) (lines, out) =
      (lines.set position (line.take place ++ (values ++ line.drop (place + values.length))),
        out ++ (List.range' place values.length).map (taken position lines)) := by
  have hlt := (List.getElem?_eq_some_iff.mp hline).1
  induction values generalizing place lines line out with
  | nil =>
    rw [List.zipIdx_nil, List.foldl_nil, List.length_nil, Nat.add_zero, List.nil_append, List.take_append_drop,
      List.range'_zero, List.map_nil, List.append_nil]
    apply congrArg (·, out)
    apply List.ext_getElem? fun index ↦ ?_
    by_cases hindex : position = index
    · rw [← hindex, List.getElem?_set_self hlt, hline]
    · rw [List.getElem?_set_ne hindex]
  | cons value values ih =>
    rw [List.length_cons] at hroom
    have hset : lines.set position ((lines.getD position []).set place value) =
        lines.set position (line.set place value) := by
      rw [List.getD_eq_getElem?_getD, hline, Option.getD_some]
    have hnext : (lines.set position (line.set place value))[position]? = some (line.set place value) :=
      List.getElem?_set_self hlt
    have hstep : TimeDeinterleaver.exchange position (lines, out) (value, place) =
        (lines.set position (line.set place value), out ++ [taken position lines place]) := by
      rw [← hset]
      rfl
    have hplaces : (line.set place value).take (place + 1) = line.take place ++ [value] := by
      rw [List.take_set, List.take_succ_eq_append_getElem (by omega), List.set_append_right _ _ (by
        rw [List.length_take]
        omega), List.length_take, Nat.min_eq_left (by omega), Nat.sub_self]
      rfl
    have hlater : (List.range' (place + 1) values.length).map
        (taken position (lines.set position (line.set place value))) =
          (List.range' (place + 1) values.length).map (taken position lines) := by
      apply List.map_congr_left
      intro later hlater
      exact taken_set value hline (List.mem_range'_1.mp hlater).1
    rw [List.zipIdx_cons, List.foldl_cons, hstep, ih (place + 1) _ hnext (by rw [List.length_set]; omega) (by
      rwa [List.length_set]), List.set_set, hplaces, hlater, List.drop_set_of_lt (by omega), List.length_cons,
      List.range'_succ, List.map_cons, List.append_assoc, List.append_assoc, List.singleton_append,
      List.singleton_append, Nat.add_right_comm, Nat.add_assoc]
    rfl

structure Deinterleaving (count : ℕ) (history : List (List Soft)) (deinterleaver : TimeDeinterleaver) : Prop where
  ring : FrameRing.Holds (List.replicate count 0) history deinterleaver.lines
  lines : deinterleaver.lines.length = depth
  position : deinterleaver.position = history.length % depth
  filled : deinterleaver.filled = min history.length (depth * 2)
  frames : ∀ frame ∈ history, frame.length = count

section Receiver

variable {count : ℕ} {history : List (List Soft)} {deinterleaver : TimeDeinterleaver}

theorem deinterleaving_new (count : ℕ) : Deinterleaving count [] (.new count) where
  ring := FrameRing.holds_blank (by decide)
  lines := List.length_replicate
  position := rfl
  filled := rfl
  frames := fun _ hframe ↦ absurd hframe List.not_mem_nil

theorem Deinterleaving.line (hdeinterleaving : Deinterleaving count history deinterleaver) {age : ℕ}
    (hage : age < depth) : deinterleaver.lines[(deinterleaver.position + (depth - 1 - age)) % depth]? =
      some (history.reverse.getD age (List.replicate count 0)) := by
  have hlines := hdeinterleaving.lines
  apply hdeinterleaving.ring.at_line
  · rwa [hlines]
  · rw [hlines, hdeinterleaving.position, Nat.mod_add_mod]

theorem Deinterleaving.push (hdeinterleaving : Deinterleaving count history deinterleaver) {fragment : List Soft}
    (hlength : fragment.length = count) (out : List Soft) :
    ∃ next,
      deinterleaver.push fragment out = (decide (depth ≤ history.length), next, receivedOf count history) ∧
        Deinterleaving count (history ++ [fragment]) next := by
  have hlengths := length_getD_reverse (0 : Soft) hdeinterleaving.frames
  have hposition : deinterleaver.position < depth := by
    rw [hdeinterleaving.position]
    exact Nat.mod_lt _ (by decide)
  have hcurrent := hdeinterleaving.line (show depth - 1 < depth by decide)
  rw [Nat.sub_self, Nat.add_zero, Nat.mod_eq_of_lt hposition] at hcurrent
  have hfirst : (deinterleaver.lines.getD 0 []).length = count := by
    have hage :
        (deinterleaver.position + (depth - 1 - (deinterleaver.position + (depth - 1)) % depth)) % depth = 0 := by
      unfold depth at *
      omega
    have hline := hdeinterleaving.line (Nat.mod_lt (deinterleaver.position + (depth - 1)) (show 0 < depth by decide))
    rw [hage] at hline
    rw [List.getD_eq_getElem?_getD, hline, Option.getD_some, hlengths]
  have hfold := foldl_exchange 0 fragment [] hcurrent (by rw [hlengths]; omega)
  rw [List.take_zero, List.drop_eq_nil_of_le (by rw [hlengths]; omega), List.nil_append, List.append_nil,
    List.nil_append] at hfold
  have htaken : (List.range' 0 fragment.length).map (taken deinterleaver.position deinterleaver.lines) =
      receivedOf count history := by
    rw [← List.range_eq_range', hlength]
    apply List.map_congr_left
    intro place _
    have hage : depth - 1 - (depth - 1 - delay place) = delay place := by
      have hdelay := delay_lt place
      omega
    have hline := hdeinterleaving.line (show depth - 1 - delay place < depth by unfold depth; omega)
    rw [hage] at hline
    rw [taken, List.getD_eq_getElem?_getD (l := deinterleaver.lines), hline, Option.getD_some]
  have hpushed := hdeinterleaving.ring.push fragment
  rw [hdeinterleaving.lines, ← hdeinterleaving.position] at hpushed
  have hready : decide (min (deinterleaver.filled + 1) (depth * 2) > depth) = decide (depth ≤ history.length) := by
    rw [hdeinterleaving.filled, decide_eq_decide]
    unfold depth
    omega
  refine ⟨⟨deinterleaver.lines.set deinterleaver.position fragment, (deinterleaver.position + 1) % depth,
    min (deinterleaver.filled + 1) (depth * 2)⟩, ?_, ?_⟩
  · rw [TimeDeinterleaver.push, if_neg (by rw [hlength, hfirst]; exact not_not.mpr rfl), hfold, htaken]
    dsimp only
    rw [TimeDeinterleaver.ready, hready]
  · refine ⟨hpushed, ?_, ?_, ?_, ?_⟩
    · rw [List.length_set, hdeinterleaving.lines]
    · rw [hdeinterleaving.position, List.length_append, List.length_singleton, Nat.mod_add_mod]
    · change min (deinterleaver.filled + 1) (depth * 2) = _
      rw [hdeinterleaving.filled, List.length_append, List.length_singleton]
      omega
    · intro frame hframe
      rcases List.mem_append.mp hframe with hold | hnew
      · exact hdeinterleaving.frames frame hold
      · rw [List.mem_singleton.mp hnew]
        exact hlength

end Receiver

/-! ## The pair -/

/-- The frame of an age, from the end of a history. -/
theorem getD_reverse {α : Type} {history : List α} {age k : ℕ} {frame : α} (hframe : history[k]? = some frame)
    (hage : k + 1 + age = history.length) (blank : α) : history.reverse.getD age blank = frame := by
  rw [List.getD_eq_getElem?_getD, List.getElem?_reverse (by omega), show history.length - 1 - age = k by omega,
    hframe, Option.getD_some]

/-- The sixteenth frame back comes out whole. -/
theorem receivedOf_sent (soft : Bool → Soft) {count number : ℕ} {frames : List (List Bool)} {frame : List Bool}
    (hlength : frame.length = count) (hnumber : number ≤ frames.length) (hdepth : depth ≤ number)
    (hframe : frames[number - depth]? = some frame) :
    receivedOf count ((List.range number).map fun k ↦ (sentOf count (frames.take (k + 1))).map soft) =
      frame.map soft := by
  subst hlength
  apply List.ext_getElem
  · rw [receivedOf, List.length_map, List.length_range, List.length_map]
  intro place hplace _
  rw [receivedOf, List.length_map, List.length_range] at hplace
  have hdelay := delay_lt place
  have hsent : ((List.range number).map fun k ↦ (sentOf frame.length (frames.take (k + 1))).map soft)[
      number - depth + delay place]? =
        some ((sentOf frame.length (frames.take (number - depth + delay place + 1))).map soft) := by
    rw [List.getElem?_map, List.getElem?_range (by omega)]
    rfl
  have htaken : (frames.take (number - depth + delay place + 1))[number - depth]? = some frame := by
    rwa [List.getElem?_take_of_lt (by omega)]
  simp only [receivedOf, List.getElem_map, List.getElem_range]
  rw [getD_reverse hsent (by rw [List.length_map, List.length_range]; omega), List.getD_eq_getElem?_getD,
    List.getElem?_map, sentOf, List.getElem?_map, List.getElem?_range hplace, Option.map_some, Option.map_some,
    Option.getD_some, getD_reverse htaken (by rw [List.length_take, Nat.min_eq_left (by omega)]; omega),
    List.getD_eq_getElem _ _ hplace]

end Sdrmm.Dab
