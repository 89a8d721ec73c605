import Sdrmm.Dsp.Conv7Viterbi
import Sdrmm.Dsp.Puncture

/-!
# Decoding a word of which some bits were not sent

Where the first bit of every symbol is received, a tailed word comes out of the decoder whatever was erased of the
rest: no other input sends those bits, and a word that disagrees at a received place correlates worse.
-/

namespace Sdrmm.Conv7

/-- What is received of a word, with nothing known where the mask drops a bit. -/
def erased (mask coded : List Bool) : List Soft :=
  List.zipWith (fun keep bit ↦ if keep then soft bit else erasure) mask coded

/-- What one place adds to a correlation. -/
def term (bit : Bool) (value : Soft) : ℤ := if bit then value.toInt else -value.toInt

theorem correlation_cons (bit : Bool) (coded : List Bool) (value : Soft) (values : List Soft) :
    correlation (bit :: coded) (value :: values) = term bit value + correlation coded values := by
  unfold correlation
  rw [List.zipWith_cons_cons, List.sum_cons]
  rfl

theorem term_le (keep bit other : Bool) :
    term other (if keep then soft bit else erasure) ≤ term bit (if keep then soft bit else erasure) := by
  revert keep bit other
  decide

theorem eq_of_term_le {bit other : Bool} (hle : term bit (soft bit) ≤ term other (soft bit)) : other = bit := by
  revert bit other
  decide

theorem correlation_erased_le {mask coded other : List Bool} (hmask : mask.length = coded.length)
    (hother : other.length = coded.length) :
    correlation other (erased mask coded) ≤ correlation coded (erased mask coded) := by
  induction coded generalizing mask other with
  | nil =>
    rw [List.length_eq_zero_iff.mp hother]
  | cons bit coded ih =>
    obtain ⟨keep, mask, rfl⟩ := List.exists_cons_of_length_eq_add_one hmask
    obtain ⟨guess, other, rfl⟩ := List.exists_cons_of_length_eq_add_one hother
    have htail := ih (Nat.succ.inj hmask) (Nat.succ.inj hother)
    have hhead := term_le keep bit guess
    rw [erased, List.zipWith_cons_cons, correlation_cons, correlation_cons]
    exact add_le_add hhead htail

/-- A word that correlates as well as the one that was sent has its bits wherever they were received. -/
theorem agrees_of_correlation {mask coded other : List Bool} (hmask : mask.length = coded.length)
    (hother : other.length = coded.length)
    (hle : correlation coded (erased mask coded) ≤ correlation other (erased mask coded)) {place : ℕ}
    (hplace : mask[place]? = some true) : other[place]? = coded[place]? := by
  induction coded generalizing mask other place with
  | nil =>
    rw [List.length_eq_zero_iff.mp hother]
  | cons bit coded ih =>
    obtain ⟨keep, mask, rfl⟩ := List.exists_cons_of_length_eq_add_one hmask
    obtain ⟨guess, other, rfl⟩ := List.exists_cons_of_length_eq_add_one hother
    have htail := correlation_erased_le (Nat.succ.inj hmask) (Nat.succ.inj hother)
    have hhead := term_le keep bit guess
    rw [erased, List.zipWith_cons_cons, correlation_cons, correlation_cons] at hle
    change _ + correlation coded (erased mask coded) ≤ _ + correlation other (erased mask coded) at hle
    cases place with
    | zero =>
      rw [List.getElem?_cons_zero, Option.some_inj] at hplace
      subst hplace
      have hsame : term bit (soft bit) ≤ term guess (soft bit) := by
        have hboth : term bit (soft bit) + correlation coded (erased mask coded) ≤
            term guess (soft bit) + correlation other (erased mask coded) := hle
        linarith
      rw [List.getElem?_cons_zero, List.getElem?_cons_zero, eq_of_term_le hsame]
    | succ place =>
      rw [List.getElem?_cons_succ] at hplace ⊢
      rw [List.getElem?_cons_succ]
      apply ih (Nat.succ.inj hmask) (Nat.succ.inj hother) _ hplace
      linarith

/-! ## The first bit of every symbol -/

section Symbols

variable {generators : Generators}

theorem length_outputBits (code : ConvCode) (mask : ℕ) : (code.outputBits mask).length = code.outputs := by
  rw [ConvCode.outputBits, List.length_map, List.length_range]

theorem length_encodeFrom (code : ConvCode) (state : State) (bits : List Bool) :
    (code.encodeFrom state bits).length = code.outputs * bits.length := by
  induction bits generalizing state with
  | nil => rfl
  | cons bit bits ih =>
    rw [ConvCode.encodeFrom, List.length_append, length_outputBits, ih, List.length_cons, Nat.mul_succ, Nat.add_comm]

/-- The newest bit of the register is told from the first bit that is sent. -/
theorem input_of_first_bit (htap : (generators.polys.getD 0 0).toNat.testBit 6 = true) {state : State} {x y : Bool}
    (hfirst : ConvCode.parityOf (generators.polys.getD 0 0) (ConvCode.register state x).val =
      ConvCode.parityOf (generators.polys.getD 0 0) (ConvCode.register state y).val) : x = y := by
  by_contra hne
  have hregister : ∀ (state : State) (x y : Bool), x ≠ y →
      (ConvCode.register state x).val = (ConvCode.register state y).val ^^^ 2 ^ 6 := by
    decide
  rw [hregister state x y hne, parityOf_flip (by norm_num) htap] at hfirst
  exact Bool.not_ne_self _ hfirst

/-- The inputs are told from the first bits of their symbols. -/
theorem inputs_of_first_bits (htap : (generators.polys.getD 0 0).toNat.testBit 6 = true) {state : State}
    {xs ys : List Bool} (hlength : xs.length = ys.length)
    (hfirst : ∀ k < xs.length, ((ConvCode.new generators).encodeFrom state xs)[generators.polys.length * k]? =
      ((ConvCode.new generators).encodeFrom state ys)[generators.polys.length * k]?) : xs = ys := by
  induction xs generalizing ys state with
  | nil => exact (List.length_eq_zero_iff.mp hlength.symm).symm
  | cons x xs ih =>
    obtain ⟨y, ys, rfl⟩ := List.exists_cons_of_length_eq_add_one hlength.symm
    have hcount : 0 < generators.polys.length := generators.count.1
    have hhead := hfirst 0 (Nat.succ_pos _)
    rw [Nat.mul_zero, ConvCode.encodeFrom, ConvCode.encodeFrom,
      List.getElem?_append_left (by rw [length_outputBits]; exact hcount),
      List.getElem?_append_left (by rw [length_outputBits]; exact hcount), first_bit, first_bit,
      Option.some_inj] at hhead
    have hsame : x = y := input_of_first_bit htap hhead
    subst hsame
    apply congrArg (x :: ·)
    apply ih (Nat.succ.inj hlength)
    intro k hk
    have htail := hfirst (k + 1) (Nat.succ_lt_succ hk)
    rw [ConvCode.encodeFrom, ConvCode.encodeFrom, Nat.mul_succ, Nat.add_comm] at htail
    rwa [List.getElem?_append_right (by rw [length_outputBits]; exact Nat.le_add_right _ _),
      List.getElem?_append_right (by rw [length_outputBits]; exact Nat.le_add_right _ _), length_outputBits,
      show (ConvCode.new generators).outputs = generators.polys.length from rfl, Nat.add_sub_cancel_left] at htail

theorem length_erased {mask coded : List Bool} (hmask : mask.length = coded.length) :
    (erased mask coded).length = coded.length := by
  rw [erased, List.length_zipWith, hmask, min_self]

theorem Generators.EndsTapped.first (htaps : generators.EndsTapped) :
    (generators.polys.getD 0 0).toNat.testBit 6 = true := by
  apply htaps.testBit (by decide)
  rw [List.getD_eq_getElem _ _ generators.count.1]
  exact List.getElem_mem _

/-- A tailed word of which the first bit of every symbol is received is decoded. -/
theorem decodeTailed_erased (htaps : generators.EndsTapped) {v : ViterbiK7} (hreach : Reachable generators v)
    {mask bits : List Bool} (hmask : mask.length = generators.polys.length * bits.length)
    (hfirst : ∀ k < bits.length, mask[generators.polys.length * k]? = some true)
    (htail : bits.foldl ConvCode.advance 0 = 0) (out : List Bool) :
    (v.decodeTailed (erased mask ((ConvCode.new generators).encode bits)) out).2.1 = out ++ bits := by
  have hcoded : ∀ bits, ((ConvCode.new generators).encode bits).length = generators.polys.length * bits.length :=
    length_encodeFrom (ConvCode.new generators) 0
  have hlength := length_erased (hmask.trans (hcoded bits).symm)
  obtain ⟨found, hout, hfound, hend, hbest⟩ :=
    decodeTailed_best htaps hreach (erased mask ((ConvCode.new generators).encode bits)) out
  rw [hlength, hcoded, Nat.mul_div_cancel_left _ generators.count.1] at hfound
  have hlengths :
      ((ConvCode.new generators).encode found).length = ((ConvCode.new generators).encode bits).length := by
    rw [hcoded, hcoded, hfound]
  have hagrees : found = bits := by
    apply inputs_of_first_bits htaps.first hfound
    intro k hk
    exact agrees_of_correlation (hmask.trans (hcoded bits).symm) hlengths (hbest bits hfound.symm htail)
      (hfirst k (hfound ▸ hk))
  rw [hout, hagrees]

end Symbols

end Sdrmm.Conv7
