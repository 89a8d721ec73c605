import Mathlib.Data.Int.Bitwise
import Mathlib.Tactic
import Sdrmm.Lib.Bits
import Sdrmm.Lib.Iter
import Sdrmm.Lib.Numerals
import Sdrmm.Lib.Survivor

/-!
# Constraint-length-seven convolutional code

The encoder and the block Viterbi decoder of `dsp/src/fec/conv7.rs`, with both trellis steps: the
table-driven scalar step with saturating 32-bit metrics, and the butterfly step used for
two-generator codes whose arithmetic wraps.  Soft values are the 16-bit integers of the source;
metrics are integers with the 32-bit behaviour written out where they are combined.

This file holds the model and the facts about its shift register.  What the decoder computes is in
`Sdrmm.Dsp.Conv7Viterbi`.
-/

namespace Sdrmm.Conv7

open Bits

abbrev State := Fin 64

abbrev Soft := Int16

/-- Between one and eight generator polynomials, the assertion of `ConvCode::new`. -/
structure Generators where
  polys : List UInt16
  count : 1 ≤ polys.length ∧ polys.length ≤ 8

structure ConvCode where
  outputs : ℕ
  branch : Vector ℕ 128
  pairSigns : Option (Vector ℤ 32 × Vector ℤ 32)

namespace ConvCode

/-- Whether generator `poly` outputs a one for the seven bits of `register`. -/
def parityOf (poly : UInt16) (register : ℕ) : Bool :=
  countOnes 16 (register &&& poly.toNat) % 2 == 1

/-- The output bits for one register, bit `index` being that of generator `index`. -/
def branchMask (polys : List UInt16) (register : ℕ) : ℕ :=
  assemble polys.length fun index ↦ parityOf (polys.getD index 0) register

def pairSign (branch : Vector ℕ 128) (bit : ℕ) (state : Fin 32) : ℤ :=
  if (branch[2 * state.val]).testBit bit then 0 else -1

def pairSignsOf (branch : Vector ℕ 128) : Vector ℤ 32 × Vector ℤ 32 :=
  (Vector.ofFn (pairSign branch 0), Vector.ofFn (pairSign branch 1))

def new (generators : Generators) : ConvCode :=
  let polys := generators.polys
  let branch : Vector ℕ 128 := Vector.ofFn fun register ↦ branchMask polys register.val
  { outputs := polys.length
    branch := branch
    pairSigns :=
      if polys.length = 2 ∧ polys.all (fun poly ↦ poly &&& 0x41 == 0x41) then
        some (pairSignsOf branch)
      else none }

/-- Six state bits with the input on top. -/
def register (state : State) (input : Bool) : Fin 128 :=
  Fin.ofNat 128 (input.toNat <<< 6 ||| state.val)

def advance (state : State) (input : Bool) : State :=
  Fin.ofNat 64 (state.val >>> 1 ||| input.toNat <<< 5)

/-- The bits sent for one output mask. -/
def outputBits (code : ConvCode) (mask : ℕ) : List Bool :=
  (List.range code.outputs).map fun index ↦ mask.testBit index

def encodeFrom (code : ConvCode) : State → List Bool → List Bool
  | _, [] => []
  | state, bit :: bits =>
      code.outputBits code.branch[register state bit] ++ encodeFrom code (advance state bit) bits

def encode (code : ConvCode) (bits : List Bool) : List Bool := code.encodeFrom 0 bits

end ConvCode

/-! ## The shift register -/

theorem advance_val (state : State) (input : Bool) :
    (ConvCode.advance state input).val = state.val / 2 + 32 * input.toNat := by
  revert state input
  decide

/-- The encoder's register as a machine: a state's predecessors are the two that shift into it. -/
def machine : Survivor.Machine State Bool where
  advance := ConvCode.advance
  pred := fun state odd ↦ Fin.ofNat 64 ((state.val &&& 31) * 2 + odd.toNat)
  input := fun state ↦ state.val >>> 5 == 1
  advance_pred := by decide
  pred_advance := by decide
  input_advance := by decide

theorem finish_six (state : State) (a b c d e f : Bool) :
    (Survivor.finish machine state [a, b, c, d, e, f]).val =
      a.toNat + 2 * b.toNat + 4 * c.toNat + 8 * d.toNat + 16 * e.toNat + 32 * f.toNat := by
  have hstate := state.isLt
  have ha := a.toNat_le
  have hb := b.toNat_le
  have hc := c.toNat_le
  have hd := d.toNat_le
  have he := e.toNat_le
  simp only [Survivor.finish, machine, List.foldl_cons, List.foldl_nil, advance_val]
  omega

/-- Six inputs fill the register. -/
theorem machine_forgetful : Survivor.Forgetful machine 6 where
  steer := by
    intro state target
    refine ⟨[target.val.testBit 0, target.val.testBit 1, target.val.testBit 2,
      target.val.testBit 3, target.val.testBit 4, target.val.testBit 5], rfl, ?_⟩
    apply Fin.ext
    rw [finish_six]
    revert target
    decide
  forget := by
    intro s t inputs hlen
    match inputs, hlen with
    | [a, b, c, d, e, f], _ =>
      apply Fin.ext
      rw [finish_six, finish_six]

/-! ## Metrics -/

abbrev Metrics := Vector ℤ 64

def i32Min : ℤ := -(2 ^ 31)

def i32Max : ℤ := 2 ^ 31 - 1

def saturatingAdd (a b : ℤ) : ℤ := max i32Min (min i32Max (a + b))

/-- The value a 32-bit register holds after an addition that may wrap. -/
def wrap32 (a : ℤ) : ℤ := Int.bmod a (2 ^ 32)

/-- The correlation of every output mask with one received symbol.  The entries are sums of at
most eight 16-bit values and cannot leave the 32-bit range. -/
def branchTable (symbol : List Soft) : Vector ℤ 256 :=
  symbol.zipIdx.foldl
    (fun branches (value, bit) ↦
      (List.range (1 <<< bit)).foldl
        (fun branches mask ↦ branches.setIfInBounds (mask ||| 1 <<< bit)
          (branches.getD mask 0 + 2 * value.toInt)) branches)
    ((Vector.replicate 256 0).setIfInBounds 0 (-(symbol.map Int16.toInt).sum))

/-- The decision word: bit `state` set when the odd predecessor wins. -/
def decisionWord (odd : State → Bool) : ℕ := assemble 64 fun state ↦ odd (Fin.ofNat 64 state)

def previous (state : State) : State := Fin.ofNat 64 ((state.val &&& 31) * 2)

def scalarStep (code : ConvCode) (metrics : Metrics) (symbol : List Soft) : Metrics × ℕ :=
  let branches := branchTable symbol
  let first (state : State) := saturatingAdd metrics[previous state]
    (branches.getD code.branch[Fin.ofNat 128 (state.val * 2)] 0)
  let second (state : State) := saturatingAdd metrics[previous state + 1]
    (branches.getD code.branch[Fin.ofNat 128 (state.val * 2 + 1)] 0)
  (Vector.ofFn fun state ↦ max (first state) (second state),
    decisionWord fun state ↦ first state < second state)

/-- The entries of the table of `scalar_step` for two outputs and its sums that may saturate. -/
def scalarSums (code : ConvCode) (metrics : Metrics) (symbol : List Soft) : List ℤ :=
  ((List.range 4).map fun mask ↦ (branchTable symbol).getD mask 0) ++ (List.finRange 64).flatMap fun state ↦
    [metrics[previous state] + (branchTable symbol).getD code.branch[Fin.ofNat 128 (state.val * 2)] 0,
      metrics[previous state + 1] +
        (branchTable symbol).getD code.branch[Fin.ofNat 128 (state.val * 2 + 1)] 0]

/-- A sign mask of `-1` negates the value, one of `0` keeps it. -/
def butterflyBranch (signs : Vector ℤ 32 × Vector ℤ 32) (values : ℤ × ℤ) (i : Fin 32) : ℤ :=
  (values.1.xor signs.1[i] - signs.1[i]) + (values.2.xor signs.2[i] - signs.2[i])

/-- `butterfly::step`: states `i` and `i + 32` share the predecessors `2 i` and `2 i + 1`. -/
def butterflyStep (metrics : Metrics) (signs : Vector ℤ 32 × Vector ℤ 32) (values : ℤ × ℤ) :
    Metrics × ℕ :=
  let branch := butterflyBranch signs values
  let even (i : Fin 32) := metrics[2 * i.val]
  let odd (i : Fin 32) := metrics[2 * i.val + 1]
  let a (i : Fin 32) := wrap32 (even i + branch i)
  let b (i : Fin 32) := wrap32 (odd i - branch i)
  let c (i : Fin 32) := wrap32 (even i - branch i)
  let d (i : Fin 32) := wrap32 (odd i + branch i)
  let low (state : State) := Fin.ofNat 32 state.val
  (Vector.ofFn fun state ↦ if state.val < 32 then max (a (low state)) (b (low state))
      else max (c (low state)) (d (low state)),
    decisionWord fun state ↦ if state.val < 32 then a (low state) < b (low state)
      else c (low state) < d (low state))

/-- Every sum of `butterfly::step`. -/
def butterflySums (metrics : Metrics) (signs : Vector ℤ 32 × Vector ℤ 32) (values : ℤ × ℤ) : List ℤ :=
  (List.finRange 32).flatMap fun i ↦
    let branch := butterflyBranch signs values i
    [values.1.xor signs.1[i] - signs.1[i], values.2.xor signs.2[i] - signs.2[i], branch,
      metrics[2 * i.val] + branch, metrics[2 * i.val + 1] - branch,
      metrics[2 * i.val] - branch, metrics[2 * i.val + 1] + branch]

structure Trellis where
  survivors : Vector Metrics 2
  front : Fin 2
  normalizationSteps : ℕ

namespace Trellis

def floor : ℤ := -(2 ^ 24)

def ceiling : ℤ := 2 ^ 28

def new : Trellis where
  survivors := Vector.replicate 2 (Vector.replicate 64 floor)
  front := 0
  normalizationSteps := 0

def metrics (t : Trellis) : Metrics := t.survivors[t.front]

def setMetrics (t : Trellis) (metrics : Metrics) : Trellis :=
  { t with survivors := t.survivors.set t.front metrics }

def setSteps (t : Trellis) (steps : ℕ) : Trellis := { t with normalizationSteps := steps }

@[simp] theorem metrics_setSteps (t : Trellis) (steps : ℕ) :
    (t.setSteps steps).metrics = t.metrics := rfl

@[simp] theorem normalizationSteps_setSteps (t : Trellis) (steps : ℕ) :
    (t.setSteps steps).normalizationSteps = steps := rfl

@[simp] theorem metrics_setMetrics (t : Trellis) (metrics : Metrics) :
    (t.setMetrics metrics).metrics = metrics := by
  simp [Trellis.metrics, setMetrics]

@[simp] theorem normalizationSteps_setMetrics (t : Trellis) (metrics : Metrics) :
    (t.setMetrics metrics).normalizationSteps = t.normalizationSteps := rfl

def restart (t : Trellis) : Trellis :=
  t.setMetrics ((Vector.replicate 64 floor).set 0 0)

def step (t : Trellis) (code : ConvCode) (symbol : List Soft) : Trellis × ℕ :=
  let (next, decisions) := match code.pairSigns with
    | some signs => butterflyStep t.metrics signs
        ((symbol.getD 0 0).toInt, (symbol.getD 1 0).toInt)
    | none => scalarStep code t.metrics symbol
  -- the other half is overwritten and becomes the front
  (setMetrics { t with front := t.front + 1 } next, decisions)

def peak (t : Trellis) : ℤ := (t.metrics.toList.max?).getD 0

def normalize (t : Trellis) : Trellis :=
  if t.normalizationSteps + 1 < 256 then t.setSteps (t.normalizationSteps + 1)
  else if ceiling < t.peak then (t.setSteps 0).setMetrics (t.metrics.map (· - t.peak))
  else t.setSteps 0

def bestState (t : Trellis) : State :=
  (Iter.maxByKey (fun state ↦ t.metrics[state]) (List.finRange 64)).getD 0

end Trellis

/-- The bits visited walking back through the decision words, latest first. -/
def trace (decisions : List ℕ) (start : State) : List Bool × State :=
  decisions.reverse.foldl
    (fun (bits, state) word ↦
      (bits ++ [state.val >>> 5 == 1],
        Fin.ofNat 64 ((state.val &&& 0x1F) <<< 1 ||| (word.testBit state.val).toNat)))
    ([], start)

structure ViterbiK7 where
  code : ConvCode
  trellis : Trellis
  decisions : List ℕ

namespace ViterbiK7

def new (code : ConvCode) : ViterbiK7 := { code := code, trellis := Trellis.new, decisions := [] }

/-- `chunks_exact` of the whole symbols of a soft stream. -/
def symbols (outputs : ℕ) (coded : List Soft) : List (List Soft) :=
  (List.range (coded.length / outputs)).map fun k ↦ (coded.drop (k * outputs)).take outputs

/-- One pass of the loop of `run` over a symbol. -/
def stepSymbol (v : ViterbiK7) (symbol : List Soft) : ViterbiK7 :=
  let (trellis, word) := v.trellis.step v.code symbol
  { v with trellis := trellis.normalize, decisions := v.decisions ++ [word] }

def run (v : ViterbiK7) (coded : List Soft) (out : List Bool) (stop : Option State) :
    ViterbiK7 × List Bool × ℤ :=
  let v := { v with decisions := [], trellis := v.trellis.restart }
  let v := (symbols v.code.outputs coded).foldl stepSymbol v
  let state := stop.getD v.trellis.bestState
  (v, out ++ (trace v.decisions state).1.reverse, v.trellis.metrics[state])

def decode (v : ViterbiK7) (coded : List Soft) (out : List Bool) : ViterbiK7 × List Bool × ℤ :=
  v.run coded out none

def decodeTailed (v : ViterbiK7) (coded : List Soft) (out : List Bool) :
    ViterbiK7 × List Bool × ℤ :=
  v.run coded out (some 0)

end ViterbiK7

end Sdrmm.Conv7
