import Mathlib.Data.List.Basic

/-!
# Output of a step function over an input stream

A component that takes one input at a time and sometimes emits a value is a step function
`σ → ι → σ × Option ω`.  This file runs such a function over a list of inputs and collects the
emissions in order.  The composition lemmas are what a proof about a whole stream uses: a stream
is cut where the component's state is known, and the outputs of the parts are concatenated.
-/

namespace Sdrmm.Mealy

variable {σ ι ω : Type*} (step : σ → ι → σ × Option ω)

/-- The state after a list of inputs, with everything emitted on the way. -/
def run (state : σ) : List ι → σ × List ω
  | [] => (state, [])
  | input :: rest =>
      let next := step state input
      let tail := run next.1 rest
      (tail.1, next.2.toList ++ tail.2)

@[simp]
theorem run_nil (state : σ) : run step state [] = (state, []) := rfl

theorem run_cons (state : σ) (input : ι) (rest : List ι) :
    run step state (input :: rest) =
      ((run step (step state input).1 rest).1,
        (step state input).2.toList ++ (run step (step state input).1 rest).2) := rfl

theorem run_append (state : σ) (first second : List ι) :
    run step state (first ++ second) =
      ((run step (run step state first).1 second).1,
        (run step state first).2 ++ (run step (run step state first).1 second).2) := by
  induction first generalizing state with
  | nil => simp
  | cons input rest ih => simp [run_cons, ih]

/-- A silent input only moves the state. -/
theorem run_cons_of_silent {state next : σ} {input : ι} (rest : List ι)
    (hstep : step state input = (next, none)) :
    run step state (input :: rest) = run step next rest := by
  rw [run_cons, hstep]
  simp

/-- A stream made of blocks, each of which takes the component from a rest state to a rest state
and emits the block itself or nothing, emits the kept blocks in order. -/
theorem run_flatMap_filter (rest : σ → Prop) (encode : ω → List ι) (keep : ω → Bool)
    (hblock : ∀ state block, rest state → rest (run step state (encode block)).1 ∧
      (run step state (encode block)).2 = if keep block then [block] else [])
    (blocks : List ω) (state : σ) (hrest : rest state) :
    (run step state (blocks.flatMap encode)).2 = blocks.filter keep := by
  induction blocks generalizing state with
  | nil => simp
  | cons block blocks ih =>
    obtain ⟨hnext, hemit⟩ := hblock state block hrest
    rw [List.flatMap_cons, run_append, hemit, ih _ hnext, List.filter_cons]
    split_ifs <;> rfl

end Sdrmm.Mealy
