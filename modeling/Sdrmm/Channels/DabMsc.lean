import Sdrmm.Channels.DabProtection
import Sdrmm.Dsp.Conv7
import Sdrmm.Dsp.Prbs

/-!
# Sub-channels of the main service channel

`channels/src/dab/msc.rs`: the time deinterleaver and the decoder of a sub-channel, which takes one fragment of
each common interleaved frame.
-/

namespace Sdrmm.Dab

open Conv7 (Soft)

def erasure : Soft := 0

def generators : Conv7.Generators := ⟨[0o133, 0o171, 0o145, 0o133], by decide⟩

def depth : ℕ := 16

def map : List ℕ := [0, 8, 4, 12, 2, 10, 6, 14, 1, 9, 5, 13, 3, 11, 7, 15]

structure TimeDeinterleaver where
  lines : List (List Soft)
  position : ℕ
  filled : ℕ

namespace TimeDeinterleaver

def new (fragment : ℕ) : TimeDeinterleaver where
  lines := List.replicate depth (List.replicate fragment 0)
  position := 0
  filled := 0

def ready (deinterleaver : TimeDeinterleaver) : Bool := deinterleaver.filled > depth

/-- One value: the delayed value is taken out, and the value put in its place of the current line. -/
def exchange (position : ℕ) (state : List (List Soft) × List Soft) (entry : Soft × ℕ) :
    List (List Soft) × List Soft :=
  let (value, index) := entry
  let line := (position + map.getD (index % depth) 0) % depth
  (state.1.set position ((state.1.getD position []).set index value),
    state.2 ++ [(state.1.getD line []).getD index 0])

def push (deinterleaver : TimeDeinterleaver) (fragment out : List Soft) :
    Bool × TimeDeinterleaver × List Soft :=
  if fragment.length ≠ (deinterleaver.lines.getD 0 []).length then (false, deinterleaver, out)
  else
    let (lines, out) := fragment.zipIdx.foldl (exchange deinterleaver.position) (deinterleaver.lines, [])
    let next : TimeDeinterleaver :=
      { lines, position := (deinterleaver.position + 1) % depth,
        filled := min (deinterleaver.filled + 1) (depth * 2) }
    (next.ready, next, out)

end TimeDeinterleaver

/-- The mother code, with nothing known of the bits that were not sent. -/
def depuncture : List Bool → List Soft → List Soft
  | [], _ => []
  | true :: mask, value :: received => value :: depuncture mask received
  | _ :: mask, received => erasure :: depuncture mask received

def packMsb (bits : List Bool) : List UInt8 :=
  bits.zipIdx.foldl (fun (out : List UInt8) (bit, index) ↦
    out.modify (index / 8) (· ||| bit.toUInt8 <<< UInt8.ofNat (7 - index % 8)))
    (List.replicate ((bits.length + 7) / 8) 0)

structure SubChannelDecoder where
  protection : Protection
  deinterleaver : TimeDeinterleaver
  viterbi : Conv7.ViterbiK7
  aligned : List Soft
  mother : List Soft
  bits : List Bool

namespace SubChannelDecoder

def new (protection : Protection) : SubChannelDecoder where
  protection := protection
  deinterleaver := .new protection.codedBits
  viterbi := .new (.new generators)
  aligned := []
  mother := []
  bits := []

/-- Whether a frame was decoded, which is then in `out`. -/
def frame (decoder : SubChannelDecoder) (fragment : List Soft) (out : List UInt8) :
    Bool × SubChannelDecoder × List UInt8 :=
  let (ready, deinterleaver, aligned) := decoder.deinterleaver.push fragment decoder.aligned
  if ready then
    let mother := depuncture decoder.protection.mask aligned
    let (viterbi, decoded, _) := decoder.viterbi.decodeTailed mother []
    let (bits, _) := (Prbs.new dabDispersal).applyBits (decoded.take decoder.protection.frameBits)
    (true, { decoder with deinterleaver, aligned, mother, viterbi, bits }, packMsb bits)
  else (false, { decoder with deinterleaver, aligned }, out)

/-- What the decoder answers to the fragments. -/
def answers (decoder : SubChannelDecoder) (out : List UInt8) : List (List Soft) → List Bool
  | [] => []
  | fragment :: fragments =>
      let (ready, decoder, out) := decoder.frame fragment out
      ready :: decoder.answers out fragments

end SubChannelDecoder

/-! ## When a frame is decoded -/

theorem length_exchange (position : ℕ) (entries : List (Soft × ℕ)) (lines : List (List Soft))
    (out : List Soft) (index : ℕ) :
    ((entries.foldl (TimeDeinterleaver.exchange position) (lines, out)).1.getD index []).length =
      (lines.getD index []).length := by
  induction entries generalizing lines out with
  | nil => rfl
  | cons entry entries ih =>
    rw [List.foldl_cons, TimeDeinterleaver.exchange, ih]
    by_cases hsame : index = position
    · subst hsame
      by_cases hlt : index < lines.length
      · simp [List.getD_eq_getElem?_getD, hlt]
      · simp [List.getD_eq_getElem?_getD, hlt]
    · simp [List.getD_eq_getElem?_getD, List.getElem?_set_ne (Ne.symm hsame)]

/-- The decoder after `count` fragments that it took. -/
structure Taken (protection : Protection) (count : ℕ) (decoder : SubChannelDecoder) : Prop where
  profile : decoder.protection = protection
  line : (decoder.deinterleaver.lines.getD 0 []).length = protection.codedBits
  filled : decoder.deinterleaver.filled = min count (depth * 2)

theorem taken_new (protection : Protection) : Taken protection 0 (.new protection) :=
  ⟨rfl, List.length_replicate, rfl⟩

variable {protection : Protection} {count : ℕ} {decoder : SubChannelDecoder}

theorem SubChannelDecoder.frame_eq (decoder : SubChannelDecoder) (fragment : List Soft) (out : List UInt8) :
    (decoder.frame fragment out).1 = (decoder.deinterleaver.push fragment decoder.aligned).1 ∧
      (decoder.frame fragment out).2.1.protection = decoder.protection ∧
      (decoder.frame fragment out).2.1.deinterleaver =
        (decoder.deinterleaver.push fragment decoder.aligned).2.1 := by
  unfold SubChannelDecoder.frame
  rcases decoder.deinterleaver.push fragment decoder.aligned with ⟨ready, deinterleaver, aligned⟩
  cases ready
  · exact ⟨rfl, rfl, rfl⟩
  · exact ⟨rfl, rfl, rfl⟩

/-- The first sixteen fragments fill the lines. -/
theorem Taken.frame (htaken : Taken protection count decoder) {fragment : List Soft}
    (hlength : fragment.length = protection.codedBits) (out : List UInt8) :
    Taken protection (count + 1) (decoder.frame fragment out).2.1 ∧
      (decoder.frame fragment out).1 = decide (depth ≤ count) := by
  obtain ⟨hready, hprofile, hdeinterleaver⟩ := decoder.frame_eq fragment out
  have hsame : ¬fragment.length ≠ (decoder.deinterleaver.lines.getD 0 []).length :=
    not_not.mpr (hlength.trans htaken.line.symm)
  have hfilled : min (decoder.deinterleaver.filled + 1) (depth * 2) = min (count + 1) (depth * 2) := by
    rw [htaken.filled]
    omega
  rw [hready]
  refine ⟨⟨hprofile.trans htaken.profile, ?_, ?_⟩, ?_⟩
  · rw [hdeinterleaver, TimeDeinterleaver.push, if_neg hsame, ← htaken.line]
    exact length_exchange _ _ _ _ 0
  · rw [hdeinterleaver, TimeDeinterleaver.push, if_neg hsame]
    exact hfilled
  · rw [TimeDeinterleaver.push, if_neg hsame]
    change decide (min (decoder.deinterleaver.filled + 1) (depth * 2) > depth) = _
    rw [hfilled, decide_eq_decide]
    unfold depth
    omega

/-- A fragment of another length is dropped. -/
theorem Taken.drop (htaken : Taken protection count decoder) {fragment : List Soft}
    (hlength : fragment.length ≠ protection.codedBits) (out : List UInt8) :
    Taken protection count (decoder.frame fragment out).2.1 ∧ (decoder.frame fragment out).1 = false := by
  obtain ⟨hready, hprofile, hdeinterleaver⟩ := decoder.frame_eq fragment out
  have hother : fragment.length ≠ (decoder.deinterleaver.lines.getD 0 []).length := by
    rw [htaken.line]
    exact hlength
  rw [TimeDeinterleaver.push, if_pos hother] at hready hdeinterleaver
  refine ⟨⟨hprofile.trans htaken.profile, ?_, ?_⟩, hready⟩
  · rw [hdeinterleaver]
    exact htaken.line
  · rw [hdeinterleaver]
    exact htaken.filled

theorem Taken.answers (htaken : Taken protection count decoder) (out : List UInt8)
    (fragments : List (List Soft)) (hlength : ∀ fragment ∈ fragments, fragment.length = protection.codedBits) :
    decoder.answers out fragments = (List.range' count fragments.length).map fun index ↦ decide (depth ≤ index) := by
  induction fragments generalizing count decoder out with
  | nil => rfl
  | cons fragment fragments ih =>
    obtain ⟨hnext, hready⟩ := htaken.frame (hlength fragment List.mem_cons_self) out
    rw [SubChannelDecoder.answers, List.length_cons, List.range'_succ, List.map_cons, ← hready,
      ← ih hnext (decoder.frame fragment out).2.2 fun other hother ↦ hlength other (List.mem_cons_of_mem _ hother)]

theorem Taken.drops (htaken : Taken protection count decoder) (out : List UInt8)
    (fragments : List (List Soft)) (hlength : ∀ fragment ∈ fragments, fragment.length ≠ protection.codedBits) :
    decoder.answers out fragments = List.replicate fragments.length false := by
  induction fragments generalizing decoder out with
  | nil => rfl
  | cons fragment fragments ih =>
    obtain ⟨hnext, hready⟩ := htaken.drop (hlength fragment List.mem_cons_self) out
    rw [SubChannelDecoder.answers, List.length_cons, List.replicate_succ,
      ← ih hnext (decoder.frame fragment out).2.2 fun other hother ↦ hlength other (List.mem_cons_of_mem _ hother)]
    exact congrArg (· :: _) hready

end Sdrmm.Dab
