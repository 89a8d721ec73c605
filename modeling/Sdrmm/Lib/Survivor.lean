import Mathlib.Tactic

/-!
# Survivor paths of a two-predecessor machine

A machine whose states each have exactly two predecessors, reached by one determined input, is
what an add-compare-select decoder runs on.  This file is the exact integer theory of that
recursion: `values` are the survivor metrics, `choices` the recorded decisions and `trace` the
traceback.  A survivor metric bounds the score of every path into its state and is attained by the
traced one.

The last section bounds the metrics.  In a machine that forgets its state after a fixed number of
steps, metrics started from arbitrary values stay within a spread that does not depend on the
length of the run, which is what a fixed-width implementation needs.
-/

namespace Sdrmm.Survivor

/-- A machine with two predecessors per state. -/
structure Machine (S I : Type*) where
  advance : S → I → S
  pred : S → Bool → S
  input : S → I
  advance_pred : ∀ s b, advance (pred s b) (input s) = s
  pred_advance : ∀ s i, ∃ b, pred (advance s i) b = s
  input_advance : ∀ s i, input (advance s i) = i

variable {S I X : Type*} (machine : Machine S I) (gain : X → S → I → ℤ)

/-- The state reached from `s` under a list of inputs. -/
def finish (s : S) (inputs : List I) : S := inputs.foldl machine.advance s

/-- The total gain of the path from `s` under `inputs`, one symbol per input. -/
def score : S → List I → List X → ℤ
  | s, i :: inputs, x :: symbols => gain x s i + score (machine.advance s i) inputs symbols
  | _, _, _ => 0

/-- The metric of entering `s` from one of its predecessors. -/
def enter (metrics : S → ℤ) (x : X) (s : S) (b : Bool) : ℤ :=
  metrics (machine.pred s b) + gain x (machine.pred s b) (machine.input s)

def select (metrics : S → ℤ) (x : X) (s : S) : ℤ :=
  max (enter machine gain metrics x s false) (enter machine gain metrics x s true)

def choice (metrics : S → ℤ) (x : X) (s : S) : Bool :=
  decide (enter machine gain metrics x s false < enter machine gain metrics x s true)

def values (metrics : S → ℤ) (symbols : List X) : S → ℤ := symbols.foldl (select machine gain) metrics

def choices : (S → ℤ) → List X → List (S → Bool)
  | _, [] => []
  | metrics, x :: symbols =>
      choice machine gain metrics x :: choices (select machine gain metrics x) symbols

/-- Walk the recorded decisions back from `s`: the start state and the inputs of the path. -/
def trace : List (S → Bool) → S → S × List I
  | [], s => (s, [])
  | decision :: decisions, s =>
      let later := trace decisions s
      (machine.pred later.1 (decision later.1), machine.input later.1 :: later.2)

theorem enter_choice (metrics : S → ℤ) (x : X) (s : S) :
    enter machine gain metrics x s (choice machine gain metrics x s) =
      select machine gain metrics x s := by
  unfold choice select
  by_cases h : enter machine gain metrics x s false < enter machine gain metrics x s true
  · rw [decide_eq_true h, max_eq_right h.le]
  · rw [decide_eq_false h, max_eq_left (not_lt.mp h)]

theorem le_select (metrics : S → ℤ) (x : X) (s : S) (i : I) :
    metrics s + gain x s i ≤ select machine gain metrics x (machine.advance s i) := by
  obtain ⟨b, hb⟩ := machine.pred_advance s i
  have henter : enter machine gain metrics x (machine.advance s i) b = metrics s + gain x s i := by
    unfold enter
    rw [hb, machine.input_advance]
  rw [← henter]
  cases b with
  | false => exact le_max_left _ _
  | true => exact le_max_right _ _

theorem choices_append (metrics : S → ℤ) (first second : List X) :
    choices machine gain metrics (first ++ second) =
      choices machine gain metrics first ++
        choices machine gain (values machine gain metrics first) second := by
  induction first generalizing metrics with
  | nil => rfl
  | cons x first ih =>
    rw [List.cons_append, choices, ih, choices, List.cons_append]
    rfl

theorem enter_sub_const (metrics : S → ℤ) (off : ℤ) (x : X) (s : S) (b : Bool) :
    enter machine gain (fun t ↦ metrics t - off) x s b =
      enter machine gain metrics x s b - off := by
  unfold enter
  ring

theorem select_sub_const (metrics : S → ℤ) (off : ℤ) (x : X) (s : S) :
    select machine gain (fun t ↦ metrics t - off) x s = select machine gain metrics x s - off := by
  unfold select
  rw [enter_sub_const, enter_sub_const, max_sub_sub_right]

/-- Metrics that differ by a constant take the same decisions. -/
theorem choice_sub_const (metrics : S → ℤ) (off : ℤ) (x : X) :
    choice machine gain (fun t ↦ metrics t - off) x = choice machine gain metrics x := by
  funext s
  unfold choice
  simp only [enter_sub_const, sub_lt_sub_iff_right]

/-- Every path scores at most the metric of the state it ends in. -/
theorem score_le_values (metrics : S → ℤ) (s : S) (inputs : List I) (symbols : List X)
    (hlen : inputs.length = symbols.length) :
    metrics s + score machine gain s inputs symbols ≤
      values machine gain metrics symbols (finish machine s inputs) := by
  induction symbols generalizing metrics s inputs with
  | nil =>
    obtain rfl := List.length_eq_zero_iff.mp hlen
    simp [score, values, finish]
  | cons x symbols ih =>
    match inputs, hlen with
    | i :: inputs, hlen =>
      have hrest := ih (select machine gain metrics x) (machine.advance s i) inputs
        (Nat.succ.inj hlen)
      calc
        metrics s + score machine gain s (i :: inputs) (x :: symbols) =
            metrics s + gain x s i +
              score machine gain (machine.advance s i) inputs symbols := by
          rw [score, add_assoc]
        _ ≤ select machine gain metrics x (machine.advance s i) +
              score machine gain (machine.advance s i) inputs symbols :=
          add_le_add (le_select machine gain metrics x s i) le_rfl
        _ ≤ _ := hrest

/-- The traced path ends where the trace began and attains the metric there. -/
theorem trace_attains (metrics : S → ℤ) (symbols : List X) (s : S) :
    let path := trace machine (choices machine gain metrics symbols) s
    path.2.length = symbols.length ∧ finish machine path.1 path.2 = s ∧
      metrics path.1 + score machine gain path.1 path.2 symbols =
        values machine gain metrics symbols s := by
  induction symbols generalizing metrics with
  | nil => simp [trace, choices, finish, score, values]
  | cons x symbols ih =>
    obtain ⟨hlen, hfinish, hscore⟩ := ih (select machine gain metrics x)
    let later := trace machine (choices machine gain (select machine gain metrics x) symbols) s
    let b := choice machine gain metrics x later.1
    have hadvance : machine.advance (machine.pred later.1 b) (machine.input later.1) = later.1 :=
      machine.advance_pred later.1 b
    refine ⟨by simpa [trace, choices] using hlen, ?_, ?_⟩
    · change finish machine (machine.advance (machine.pred later.1 b) (machine.input later.1))
        later.2 = s
      rw [hadvance]
      exact hfinish
    · change metrics (machine.pred later.1 b) +
        (gain x (machine.pred later.1 b) (machine.input later.1) +
          score machine gain (machine.advance (machine.pred later.1 b) (machine.input later.1))
            later.2 symbols) = _
      rw [hadvance, ← add_assoc]
      have henter := enter_choice machine gain metrics x later.1
      rw [enter] at henter
      rw [henter]
      exact hscore

/-! ## Bounds -/

theorem values_append (metrics : S → ℤ) (first second : List X) :
    values machine gain metrics (first ++ second) =
      values machine gain (values machine gain metrics first) second :=
  List.foldl_append

theorem score_append (s : S) (first second : List I) (early late : List X)
    (hlen : first.length = early.length) :
    score machine gain s (first ++ second) (early ++ late) =
      score machine gain s first early +
        score machine gain (finish machine s first) second late := by
  induction first generalizing s early with
  | nil =>
    obtain rfl := List.length_eq_zero_iff.mp hlen.symm
    simp [score, finish]
  | cons i first ih =>
    match early, hlen with
    | x :: early, hlen =>
      simp only [List.cons_append, score, ih _ early (Nat.succ.inj hlen), add_assoc]
      rfl

variable {machine gain} {bound : ℤ} {symbols : List X}

theorem score_abs_le (machine : Machine S I) (hbound : 0 ≤ bound) (hgain : ∀ x ∈ symbols, ∀ s i, |gain x s i| ≤ bound)
    (s : S) (inputs : List I) :
    |score machine gain s inputs symbols| ≤ symbols.length * bound := by
  induction symbols generalizing s inputs with
  | nil => cases inputs <;> simp [score]
  | cons x symbols ih =>
    have htotal : (0 : ℤ) ≤ (x :: symbols).length * bound := by positivity
    cases inputs with
    | nil => simpa [score] using htotal
    | cons i inputs =>
      have hhead := hgain x (List.mem_cons_self ..) s i
      have htail := ih (fun y hy ↦ hgain y (List.mem_cons_of_mem x hy)) (machine.advance s i) inputs
      calc
        |score machine gain s (i :: inputs) (x :: symbols)| ≤
            |gain x s i| + |score machine gain (machine.advance s i) inputs symbols| :=
          abs_add_le _ _
        _ ≤ bound + symbols.length * bound := add_le_add hhead htail
        _ = _ := by rw [List.length_cons]; push_cast; ring

/-- A machine that can be steered into any state, and forgets where it came from, in `depth`
steps. -/
structure Forgetful (machine : Machine S I) (depth : ℕ) : Prop where
  steer : ∀ s target, ∃ inputs : List I, inputs.length = depth ∧ finish machine s inputs = target
  forget : ∀ s t (inputs : List I), inputs.length = depth →
    finish machine s inputs = finish machine t inputs

variable {depth : ℕ}

theorem Forgetful.finish_eq (hforget : Forgetful machine depth) (s t : S) (inputs : List I)
    (hlen : depth ≤ inputs.length) : finish machine s inputs = finish machine t inputs := by
  have hsplit := List.take_append_drop depth inputs
  rw [← hsplit, finish, finish, List.foldl_append, List.foldl_append]
  have hmerge := hforget.forget s t (inputs.take depth) (by rw [List.length_take]; omega)
  exact congrArg (fun state ↦ (inputs.drop depth).foldl machine.advance state) hmerge

/-- Two paths under the same inputs differ in score only until the machine has forgotten. -/
theorem Forgetful.score_sub_le (hforget : Forgetful machine depth) (hbound : 0 ≤ bound)
    (hgain : ∀ x ∈ symbols, ∀ s i, |gain x s i| ≤ bound) (s t : S) (inputs : List I)
    (hlen : inputs.length = symbols.length) :
    score machine gain s inputs symbols - score machine gain t inputs symbols ≤
      2 * depth * bound := by
  have hshort (early : List X) (hsub : ∀ x ∈ early, x ∈ symbols) (first : List I)
      (hearly : early.length ≤ depth) :
      score machine gain s first early - score machine gain t first early ≤ 2 * depth * bound := by
    have hs := abs_le.mp (score_abs_le machine hbound
      (fun x hx ↦ hgain x (hsub x hx)) s first)
    have ht := abs_le.mp (score_abs_le machine hbound
      (fun x hx ↦ hgain x (hsub x hx)) t first)
    have hmul : (early.length : ℤ) * bound ≤ depth * bound :=
      mul_le_mul_of_nonneg_right (by exact_mod_cast hearly) hbound
    linarith
  by_cases hdepth : symbols.length ≤ depth
  · exact hshort symbols (fun _ hx ↦ hx) inputs hdepth
  · have htake : (inputs.take depth).length = (symbols.take depth).length := by
      rw [List.length_take, List.length_take, hlen]
    have hmerge := hforget.forget s t (inputs.take depth) (by rw [List.length_take]; omega)
    rw [← List.take_append_drop depth inputs, ← List.take_append_drop depth symbols,
      score_append machine gain s _ _ _ _ htake, score_append machine gain t _ _ _ _ htake, hmerge,
      add_sub_add_right_eq_sub]
    exact hshort _ (fun x hx ↦ List.mem_of_mem_take hx) _
      (by rw [List.length_take]; exact Nat.min_le_left _ _)

/-- The survivor metrics of a forgetful machine stay together however long the run is. -/
theorem Forgetful.spread_le (hforget : Forgetful machine depth) (hbound : 0 ≤ bound)
    (hgain : ∀ x ∈ symbols, ∀ s i, |gain x s i| ≤ bound) (metrics : S → ℤ) (width : ℤ)
    (hwidth : ∀ s t, metrics s - metrics t ≤ width) (s t : S) :
    values machine gain metrics symbols s - values machine gain metrics symbols t ≤
      width + 2 * depth * bound := by
  have hscore (early late : List X) (heq : symbols = early ++ late) (hlate : late.length ≤ depth)
      (from₁ from₂ : S) (inputs₁ inputs₂ : List I) :
      score machine gain from₁ inputs₁ late - score machine gain from₂ inputs₂ late ≤
        2 * depth * bound := by
    have hmem : ∀ x ∈ late, ∀ s i, |gain x s i| ≤ bound := by
      intro x hx
      exact hgain x (heq ▸ List.mem_append_right early hx)
    have h₁ := abs_le.mp (score_abs_le machine hbound hmem from₁ inputs₁)
    have h₂ := abs_le.mp (score_abs_le machine hbound hmem from₂ inputs₂)
    have hmul : (late.length : ℤ) * bound ≤ depth * bound :=
      mul_le_mul_of_nonneg_right (by exact_mod_cast hlate) hbound
    linarith
  by_cases hshort : symbols.length ≤ depth
  · -- both metrics are paths over the whole run
    obtain ⟨-, -, hs⟩ := trace_attains machine gain metrics symbols s
    obtain ⟨-, -, ht⟩ := trace_attains machine gain metrics symbols t
    rw [← hs, ← ht]
    have hdiff := hscore [] symbols rfl hshort
      (trace machine (choices machine gain metrics symbols) s).1
      (trace machine (choices machine gain metrics symbols) t).1
      (trace machine (choices machine gain metrics symbols) s).2
      (trace machine (choices machine gain metrics symbols) t).2
    have hstart := hwidth (trace machine (choices machine gain metrics symbols) s).1
      (trace machine (choices machine gain metrics symbols) t).1
    linarith
  · -- the survivor of `s`, `depth` steps back, can be steered into `t` instead
    let early := symbols.take (symbols.length - depth)
    let late := symbols.drop (symbols.length - depth)
    have heq : symbols = early ++ late := (List.take_append_drop _ symbols).symm
    have hlate : late.length = depth := by
      rw [List.length_drop]
      omega
    let before := values machine gain metrics early
    let back := trace machine (choices machine gain before late) s
    obtain ⟨-, -, hs⟩ := trace_attains machine gain before late s
    obtain ⟨inputs, hinputs, hfinish⟩ := hforget.steer back.1 t
    have ht := score_le_values machine gain before back.1 inputs late (hinputs.trans hlate.symm)
    have hdiff := hscore early late heq hlate.le back.1 back.1 back.2 inputs
    have hnonneg : 0 ≤ width := by simpa using hwidth s s
    rw [hfinish] at ht
    rw [heq, values_append]
    change values machine gain before late s - values machine gain before late t ≤ _
    rw [← hs]
    linarith

end Sdrmm.Survivor
