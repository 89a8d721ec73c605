import Sdrmm.Dsp.Conv7Viterbi

/-!
# The butterfly against the scalar step

`butterfly::step` adds with 32-bit wraparound where `scalar_step` saturates.  In every run of a trellis
the survivor metrics stay close to each other and, rescaled every 256 steps, far from the ends of the
32-bit range, so no sum wraps or saturates and the two steps are one.
-/

namespace Sdrmm.Conv7

open Bits Survivor

/-- `Trellis::open`. -/
def Trellis.openAll (t : Trellis) : Trellis := t.setMetrics (Vector.replicate 64 0)

/-- A code that is stepped without its butterfly. -/
def ConvCode.scalar (code : ConvCode) : ConvCode := { code with pairSigns := none }

/-- What a decoder does with its trellis: a symbol is a step and then `normalize`. -/
inductive TrellisEvent where
  | openAll
  | restart
  | symbol (first second : Soft)

def Trellis.apply (code : ConvCode) (t : Trellis) : TrellisEvent → Trellis
  | .openAll => t.openAll
  | .restart => t.restart
  | .symbol first second => (t.step code [first, second]).1.normalize

def Trellis.reached (code : ConvCode) (events : List TrellisEvent) : Trellis :=
  events.foldl (Trellis.apply code) Trellis.new

def Fits (a : ℤ) : Prop := i32Min ≤ a ∧ a ≤ i32Max

/-- The differences that `normalize` stores when it rescales. -/
def normalizeDifferences (t : Trellis) : List ℤ :=
  if t.normalizationSteps + 1 < 256 then []
  else if Trellis.ceiling < t.peak then t.metrics.toList.map (· - t.peak)
  else []

/-! ## One step -/

/-- What a step selects is all there is to its result. -/
theorem Selects.unique {code : ConvCode} {metrics : Metrics} {symbol : List Soft}
    {first second : Metrics} {firstOdd secondOdd : State → Bool}
    (hfirst : Selects code metrics symbol (first, decisionWord firstOdd))
    (hsecond : Selects code metrics symbol (second, decisionWord secondOdd)) :
    (first, decisionWord firstOdd) = (second, decisionWord secondOdd) := by
  apply Prod.ext
  · apply Vector.ext
    intro i hi
    exact (hfirst ⟨i, hi⟩).1.trans (hsecond ⟨i, hi⟩).1.symm
  · have hodd : firstOdd = secondOdd := by
      funext state
      rw [← testBit_decisionWord firstOdd, ← testBit_decisionWord secondOdd]
      exact (hfirst state).2.trans (hsecond state).2.symm
    rw [hodd]

section Pair

variable {generators : Generators} (htwo : generators.polys.length = 2)
  (htaps : generators.EndsTapped)

include htwo htaps in
theorem pairSigns_new : (ConvCode.new generators).pairSigns =
    some (ConvCode.pairSignsOf (ConvCode.new generators).branch) := by
  have hall : generators.polys.all (fun poly ↦ poly &&& 0x41 == 0x41) = true := by
    simpa [Generators.EndsTapped] using htaps
  simp only [ConvCode.new, htwo, hall, and_self, if_true]

include htwo htaps in
theorem butterflyStep_eq {metrics : Metrics} {first second : Soft}
    (hexact : Exact (ConvCode.new generators) metrics [first, second]) :
    butterflyStep metrics (ConvCode.pairSignsOf (ConvCode.new generators).branch)
        (first.toInt, second.toInt) =
      scalarStep (ConvCode.new generators) metrics [first, second] :=
  Selects.unique (butterflyStep_selects htaps htwo first second hexact)
    (scalarStep_selects htwo.symm hexact)

include htwo htaps in
theorem step_scalar {t : Trellis} {first second : Soft}
    (hexact : Exact (ConvCode.new generators) t.metrics [first, second]) :
    t.step (ConvCode.new generators) [first, second] =
      t.step (ConvCode.new generators).scalar [first, second] := by
  have hstep := butterflyStep_eq htwo htaps hexact
  simp only [Trellis.step, pairSigns_new htwo htaps, ConvCode.scalar, List.getD_cons_zero,
    List.getD_cons_succ]
  rw [hstep]
  rfl

/-- The four sums of a butterfly are what its two states are entered with. -/
theorem butterfly_enter (metrics : Metrics) (first second : Soft) (htwo : generators.polys.length = 2)
    (htaps : generators.EndsTapped) (i : Fin 32) :
    let branch := butterflyBranch (ConvCode.pairSignsOf (ConvCode.new generators).branch)
      (first.toInt, second.toInt) i
    let enters (state : State) (odd : Bool) :=
      enter machine (gain (ConvCode.new generators)) metrics.at [first, second] state odd
    metrics[2 * i.val] + branch = enters (Fin.ofNat 64 i.val) false ∧
      metrics[2 * i.val + 1] - branch = enters (Fin.ofNat 64 i.val) true ∧
      metrics[2 * i.val] - branch = enters (Fin.ofNat 64 (i.val + 32)) false ∧
      metrics[2 * i.val + 1] + branch = enters (Fin.ofNat 64 (i.val + 32)) true := by
  have hlayout : (machine.pred (Fin.ofNat 64 i.val) false).val = 2 * i.val ∧
      (machine.pred (Fin.ofNat 64 i.val) true).val = 2 * i.val + 1 ∧
      machine.pred (Fin.ofNat 64 (i.val + 32)) false = machine.pred (Fin.ofNat 64 i.val) false ∧
      machine.pred (Fin.ofNat 64 (i.val + 32)) true = machine.pred (Fin.ofNat 64 i.val) true ∧
      machine.input (Fin.ofNat 64 i.val) = false ∧
      machine.input (Fin.ofNat 64 (i.val + 32)) = true ∧
      Fin.ofNat 32 (Fin.ofNat 64 i.val).val = i := by
    revert i
    decide
  obtain ⟨heven, hodd, hhighEven, hhighOdd, hlow, hhigh, hback⟩ := hlayout
  have hbranch := butterflyBranch_eq htwo first second (Fin.ofNat 64 i.val)
  rw [hback] at hbranch
  have hopposite := gain_odd htaps [first, second] (Fin.ofNat 64 i.val) false
  have hevenAt : metrics[2 * i.val] = metrics.at (machine.pred (Fin.ofNat 64 i.val) false) := by
    simp only [Metrics.at, Fin.getElem_fin, heven]
  have hoddAt : metrics[2 * i.val + 1] = metrics.at (machine.pred (Fin.ofNat 64 i.val) true) := by
    simp only [Metrics.at, Fin.getElem_fin, hodd]
  dsimp only
  unfold enter
  rw [hbranch, hevenAt, hoddAt, hhighEven, hhighOdd, hlow, hhigh, gain_true htaps, gain_true htaps,
    hopposite]
  refine ⟨rfl, sub_eq_add_neg _ _, sub_eq_add_neg _ _, ?_⟩
  rw [neg_neg]

include htwo htaps in
theorem butterflySums_fit {metrics : Metrics} {first second : Soft}
    (hexact : Exact (ConvCode.new generators) metrics [first, second]) :
    ∀ sum ∈ butterflySums metrics (ConvCode.pairSignsOf (ConvCode.new generators).branch)
      (first.toInt, second.toInt), Fits sum := by
  intro sum hsum
  obtain ⟨i, -, hsum⟩ := List.mem_flatMap.mp hsum
  obtain ⟨ha, hb, hc, hd⟩ := butterfly_enter metrics first second htwo htaps i
  dsimp only at hsum ha hb hc hd
  rw [ha, hb, hc, hd] at hsum
  have hfirst := first.toInt_lt
  have hfirstLow := first.le_toInt
  have hsecond := second.toInt_lt
  have hsecondLow := second.le_toInt
  have hsign (value : ℤ) (bit : ℕ) :
      value.xor (ConvCode.pairSign (ConvCode.new generators).branch bit i) -
          ConvCode.pairSign (ConvCode.new generators).branch bit i = value ∨
        value.xor (ConvCode.pairSign (ConvCode.new generators).branch bit i) -
          ConvCode.pairSign (ConvCode.new generators).branch bit i = -value := by
    rw [ConvCode.pairSign, xor_sign]
    cases (ConvCode.new generators).branch[2 * i.val].testBit bit with
    | true => exact Or.inl rfl
    | false => exact Or.inr rfl
  have hx := hsign first.toInt 0
  have hy := hsign second.toInt 1
  simp only [butterflyBranch, ConvCode.pairSignsOf, Fin.getElem_fin, Vector.getElem_ofFn, Fin.eta,
    List.mem_cons, List.not_mem_nil, or_false] at hsum
  rcases hsum with rfl | rfl | rfl | rfl | rfl | rfl | rfl
  · unfold Fits i32Min i32Max
    omega
  · unfold Fits i32Min i32Max
    omega
  · unfold Fits i32Min i32Max
    omega
  · exact hexact _ _
  · exact hexact _ _
  · exact hexact _ _
  · exact hexact _ _

include htwo in
theorem scalarSums_fit {metrics : Metrics} {first second : Soft}
    (hexact : Exact (ConvCode.new generators) metrics [first, second]) :
    ∀ sum ∈ scalarSums (ConvCode.new generators).scalar metrics [first, second], Fits sum := by
  have hlen : [first, second].length = generators.polys.length := htwo.symm
  intro sum hsum
  rcases List.mem_append.mp hsum with hentry | hsum
  · obtain ⟨mask, hmask, rfl⟩ := List.mem_map.mp hentry
    have hlt : mask < 4 := List.mem_range.mp hmask
    rw [getD_branchTable [first, second] (by decide : 2 ≤ 8) mask hlt]
    have hbound := abs_le.mp (correlation_abs_le
      ((List.range [first, second].length).map mask.testBit) [first, second])
    have htwice : (([first, second].length : ℕ) : ℤ) * 2 ^ 15 = 2 ^ 16 := by norm_num
    rw [htwice] at hbound
    unfold Fits i32Min i32Max
    constructor <;> linarith
  · obtain ⟨state, -, hsum⟩ := List.mem_flatMap.mp hsum
    obtain ⟨heven, hodd, hfirstRegister, hsecondRegister⟩ := scalar_layout state
    have hfirst := add_branch metrics hlen state false (previous state)
      (Fin.ofNat 128 (state.val * 2)) heven hfirstRegister
    have hsecond := add_branch metrics hlen state true (previous state + 1)
      (Fin.ofNat 128 (state.val * 2 + 1)) hodd hsecondRegister
    rcases List.mem_cons.mp hsum with rfl | hsum
    · exact hfirst ▸ hexact state false
    · rw [List.mem_singleton.mp hsum]
      exact hsecond ▸ hexact state true

end Pair

/-! ## Every run -/

/-- A trellis whose metrics are those of some symbols from a start whose metrics are close together. -/
def Ranged (generators : Generators) (t : Trellis) : Prop :=
  ∃ first seen, (∀ s t, first s - first t ≤ 2 ^ 24) ∧
    (∀ symbol ∈ seen, symbol.length = generators.polys.length) ∧
    Follows (values machine (gain (ConvCode.new generators)) first seen) Trellis.floor t

theorem Ranged.of_start (generators : Generators) {t : Trellis} {first : State → ℤ}
    (hsteps : t.normalizationSteps < 256) (hmetrics : t.metrics.at = first)
    (hfirst : ∀ s t, first s - first t ≤ 2 ^ 24) (hlow : ∃ state, Trellis.floor ≤ first state)
    (hhigh : ∀ state, first state ≤ 0) : Ranged generators t := by
  refine ⟨first, [], hfirst, nofun, hsteps, 0, ?_, ?_, ?_⟩
  · rw [hmetrics]
    funext state
    exact (sub_zero _).symm
  · obtain ⟨state, hstate⟩ := hlow
    exact ⟨state, (add_zero Trellis.floor).trans_le hstate⟩
  · intro state
    refine (sub_zero (first state)).trans_le ((hhigh state).trans ?_)
    unfold Trellis.ceiling
    positivity

theorem Ranged.steps {generators : Generators} {t : Trellis} (hranged : Ranged generators t) :
    t.normalizationSteps < 256 := by
  obtain ⟨first, seen, -, -, hfollows⟩ := hranged
  exact hfollows.steps

theorem ranged_new (generators : Generators) : Ranged generators Trellis.new := by
  have hmetrics : Trellis.new.metrics.at = fun _ ↦ Trellis.floor := by
    funext state
    simp [Trellis.new, Trellis.metrics, Metrics.at]
  apply Ranged.of_start generators (by decide) hmetrics
  · intro s t
    rw [sub_self]
    positivity
  · exact ⟨0, le_rfl⟩
  · intro state
    decide

theorem Ranged.openAll {generators : Generators} {t : Trellis} (hranged : Ranged generators t) :
    Ranged generators t.openAll := by
  have hmetrics : t.openAll.metrics.at = fun _ ↦ 0 := by
    funext state
    simp [Trellis.openAll, Metrics.at]
  have hsteps : t.openAll.normalizationSteps < 256 := hranged.steps
  apply Ranged.of_start generators hsteps hmetrics
  · intro s t
    rw [sub_self]
    positivity
  · exact ⟨0, by decide⟩
  · intro state
    exact le_rfl

theorem Ranged.restart {generators : Generators} {t : Trellis} (hranged : Ranged generators t) :
    Ranged generators t.restart := by
  have hsteps : t.restart.normalizationSteps < 256 := hranged.steps
  apply Ranged.of_start generators hsteps (restart_metrics t) start_sub_le
  · exact ⟨0, by decide⟩
  · exact start_nonpos

theorem Ranged.exact {generators : Generators} {t : Trellis} (hranged : Ranged generators t)
    {symbol : List Soft} (hlen : symbol.length = generators.polys.length) :
    Exact (ConvCode.new generators) t.metrics symbol := by
  obtain ⟨first, seen, hfirst, hseen, hfollows⟩ := hranged
  exact hfollows.exact le_rfl (values_sub_le hfirst hseen) hlen

theorem mem_snoc_length {generators : Generators} {seen : List (List Soft)} {symbol : List Soft}
    (hseen : ∀ symbol ∈ seen, symbol.length = generators.polys.length)
    (hlen : symbol.length = generators.polys.length) :
    ∀ other ∈ seen ++ [symbol], other.length = generators.polys.length := by
  intro other hother
  rcases List.mem_append.mp hother with h | h
  · exact hseen other h
  · rw [List.mem_singleton.mp h]
    exact hlen

theorem values_snoc (generators : Generators) (first : State → ℤ) (seen : List (List Soft))
    (symbol : List Soft) : values machine (gain (ConvCode.new generators)) first (seen ++ [symbol]) =
      select machine (gain (ConvCode.new generators))
        (values machine (gain (ConvCode.new generators)) first seen) symbol :=
  List.foldl_append

theorem Ranged.symbol {generators : Generators} (htaps : generators.EndsTapped) {t : Trellis}
    (hranged : Ranged generators t) {symbol : List Soft}
    (hlen : symbol.length = generators.polys.length) :
    Ranged generators (t.step (ConvCode.new generators) symbol).1.normalize := by
  obtain ⟨first, seen, hfirst, hseen, hfollows⟩ := hranged
  refine ⟨first, seen ++ [symbol], hfirst, mem_snoc_length hseen hlen, ?_⟩
  rw [values_snoc]
  exact hfollows.step htaps le_rfl (by decide) (values_sub_le hfirst hseen) hlen

/-- Rescaling subtracts the best metric, from which none is further away than the spread. -/
theorem Ranged.normalize_fits {generators : Generators} (htaps : generators.EndsTapped) {t : Trellis}
    (hranged : Ranged generators t) {symbol : List Soft}
    (hlen : symbol.length = generators.polys.length) :
    ∀ difference ∈ normalizeDifferences (t.step (ConvCode.new generators) symbol).1,
      Fits difference := by
  obtain ⟨first, seen, hfirst, hseen, hfollows⟩ := hranged
  obtain ⟨off, hmetrics, -, -⟩ := hfollows.stepped htaps le_rfl (values_sub_le hfirst hseen) hlen
  rw [← values_snoc] at hmetrics
  have hspread := values_sub_le hfirst (mem_snoc_length hseen hlen)
  generalize (t.step (ConvCode.new generators) symbol).1 = stepped at hmetrics
  intro difference hdifference
  unfold normalizeDifferences at hdifference
  split at hdifference
  · exact absurd hdifference List.not_mem_nil
  · split at hdifference
    · obtain ⟨metric, hmetric, rfl⟩ := List.mem_map.mp hdifference
      obtain ⟨i, hi, rfl⟩ := List.getElem_of_mem hmetric
      obtain ⟨top, htop⟩ := exists_eq_peak stepped
      have hstate : i < 64 := by simpa using hi
      have hat : stepped.metrics.toList[i] = stepped.metrics.at ⟨i, hstate⟩ := by
        simp [Metrics.at]
      have hpeak := le_peak stepped ⟨i, hstate⟩
      have hnear := hspread top ⟨i, hstate⟩
      rw [hat, ← htop]
      rw [← htop] at hpeak
      rw [hmetrics] at hpeak ⊢
      unfold spread at hnear
      unfold Fits i32Min i32Max
      constructor <;> linarith
    · exact absurd hdifference List.not_mem_nil

theorem reached_nil (code : ConvCode) : Trellis.reached code [] = Trellis.new := rfl

theorem reached_snoc (code : ConvCode) (events : List TrellisEvent) (event : TrellisEvent) :
    Trellis.reached code (events ++ [event]) = Trellis.apply code (Trellis.reached code events) event :=
  List.foldl_append

theorem apply_openAll (code : ConvCode) (t : Trellis) : Trellis.apply code t .openAll = t.openAll := rfl

theorem apply_restart (code : ConvCode) (t : Trellis) : Trellis.apply code t .restart = t.restart := rfl

theorem apply_symbol (code : ConvCode) (t : Trellis) (first second : Soft) :
    Trellis.apply code t (.symbol first second) = (t.step code [first, second]).1.normalize := rfl

theorem ranged_reached {generators : Generators} (htwo : generators.polys.length = 2)
    (htaps : generators.EndsTapped) (events : List TrellisEvent) :
    Ranged generators (Trellis.reached (ConvCode.new generators) events) := by
  induction events using List.reverseRecOn with
  | nil => exact ranged_new generators
  | append_singleton events event ih =>
    rw [reached_snoc]
    cases event with
    | openAll => exact ih.openAll
    | restart => exact ih.restart
    | symbol first second => exact ih.symbol htaps htwo.symm

theorem reached_scalar {generators : Generators} (htwo : generators.polys.length = 2)
    (htaps : generators.EndsTapped) (events : List TrellisEvent) :
    Trellis.reached (ConvCode.new generators).scalar events =
      Trellis.reached (ConvCode.new generators) events := by
  induction events using List.reverseRecOn with
  | nil => rw [reached_nil, reached_nil]
  | append_singleton events event ih =>
    rw [reached_snoc, reached_snoc, ih]
    cases event with
    | openAll => rw [apply_openAll, apply_openAll]
    | restart => rw [apply_restart, apply_restart]
    | symbol first second =>
      have hlen : [first, second].length = generators.polys.length := htwo.symm
      have hexact := (ranged_reached htwo htaps events).exact hlen
      rw [apply_symbol, apply_symbol, step_scalar htwo htaps hexact]

/-- However a trellis has been run, with its butterfly or without, it is the same, and the next step
gives the same metrics and decisions with no sum of either step, and no difference of the rescaling
behind it, outside the 32-bit range. -/
theorem butterfly_matches_scalar (generators : Generators) (htwo : generators.polys.length = 2)
    (htaps : generators.EndsTapped) (events : List TrellisEvent) (first second : Soft) :
    let code := ConvCode.new generators
    let t := Trellis.reached code events
    Trellis.reached code.scalar events = t ∧
      code.pairSigns = some (ConvCode.pairSignsOf code.branch) ∧
      t.step code [first, second] = t.step code.scalar [first, second] ∧
      (∀ sum ∈ butterflySums t.metrics (ConvCode.pairSignsOf code.branch)
        (first.toInt, second.toInt), Fits sum) ∧
      (∀ sum ∈ scalarSums code.scalar t.metrics [first, second], Fits sum) ∧
      ∀ difference ∈ normalizeDifferences (t.step code [first, second]).1, Fits difference := by
  have hlen : [first, second].length = generators.polys.length := htwo.symm
  have hranged := ranged_reached htwo htaps events
  have hexact := hranged.exact hlen
  exact ⟨reached_scalar htwo htaps events, pairSigns_new htwo htaps, step_scalar htwo htaps hexact,
    butterflySums_fit htwo htaps hexact, scalarSums_fit htwo hexact,
    hranged.normalize_fits htaps hlen⟩

/-- The generators of DVB-S, one symbol into a run with the extreme soft values. -/
theorem butterfly_matches_scalar_dvbS :
    let code := ConvCode.new dvbS
    let t := Trellis.reached code [.openAll, .symbol (-32768) 32767]
    t.step code [-32768, -32768] = t.step code.scalar [-32768, -32768] :=
  (butterfly_matches_scalar dvbS (by decide) (by decide) [.openAll, .symbol (-32768) 32767] (-32768)
    (-32768)).2.2.1

end Sdrmm.Conv7
