import Mathlib.Tactic

/-!
# Survivor paths over a full trellis

In a full trellis every state leads to every state, and the input is the state that is entered.  `step` tries
every input in every state that was reached, `forward` keeps how each state was entered and `traceback` walks
back.  Metrics that equal `limit` mark states that were not reached; as long as no cost comes near it, the traced
path is cheapest among all that end in its state.
-/

namespace Sdrmm.FullTrellis

/-- The metric of each state, and the state and the input it was entered by. -/
structure Column (n : ℕ) where
  metric : Vector ℕ n
  entered : Vector (Fin n × Fin n) n

variable {n : ℕ} {X : Type*} (cost : X → Fin n → Fin n → ℕ) (limit : ℕ)

def tryInput (x : X) (state : Fin n) (base : ℕ) (column : Column n) (input : Fin n) : Column n :=
  let candidate := base + cost x state input
  if candidate < column.metric[input] then
    ⟨column.metric.set input candidate, column.entered.set input (state, input)⟩
  else column

def tryState (metric : Vector ℕ n) (x : X) (column : Column n) (state : Fin n) : Column n :=
  if metric[state] = limit then column
  else (List.finRange n).foldl (tryInput cost x state metric[state]) column

/-- The state the path to `state` starts in, and its inputs. -/
def traceback : List (Vector (Fin n × Fin n) n) → Fin n → Fin n × List (Fin n)
  | [], state => (state, [])
  | entered :: history, state =>
    let later := traceback history state
    (entered[later.1].1, entered[later.1].2 :: later.2)

section Decoder

variable [NeZero n]

def step (metric : Vector ℕ n) (x : X) : Column n :=
  (List.finRange n).foldl (tryState cost limit metric x)
    ⟨Vector.replicate n limit, Vector.replicate n (0, 0)⟩

/-- The last metrics, and for each symbol how the states were entered. -/
def forward : Vector ℕ n → List X → Vector ℕ n × List (Vector (Fin n × Fin n) n)
  | metric, [] => (metric, [])
  | metric, x :: symbols =>
    let column := step cost limit metric x
    let later := forward column.metric symbols
    (later.1, column.entered :: later.2)

def start : Vector ℕ n := (Vector.replicate n limit).set (0 : Fin n) 0

/-- The inputs of the survivor that starts and ends in state zero. -/
def decode (symbols : List X) : List (Fin n) :=
  (traceback (forward cost limit (start limit) symbols).2 0).2

end Decoder

/-- What a path costs, one symbol an input. -/
def pathCost : Fin n → List (Fin n) → List X → ℕ
  | state, input :: inputs, x :: symbols => cost x state input + pathCost input inputs symbols
  | _, _, _ => 0

def finish (state : Fin n) (inputs : List (Fin n)) : Fin n := inputs.foldl (fun _ input ↦ input) state

theorem finish_append_singleton (state last : Fin n) (inputs : List (Fin n)) :
    finish state (inputs ++ [last]) = last := by
  rw [finish, List.foldl_append]
  rfl

/-! ## One column -/

def Column.at (column : Column n) (state : Fin n) : ℕ × Fin n × Fin n :=
  (column.metric[state], column.entered[state])

/-- The better of two ways into a state, the one that is there first. -/
def offer (best candidate : ℕ × Fin n × Fin n) : ℕ × Fin n × Fin n :=
  if candidate.1 < best.1 then candidate else best

theorem offer_le_left (best candidate : ℕ × Fin n × Fin n) : (offer best candidate).1 ≤ best.1 := by
  unfold offer
  split
  · next h => exact h.le
  · exact le_rfl

theorem offer_le_right (best candidate : ℕ × Fin n × Fin n) :
    (offer best candidate).1 ≤ candidate.1 := by
  unfold offer
  split
  · exact le_rfl
  · next h => exact not_lt.mp h

theorem offer_eq (best candidate : ℕ × Fin n × Fin n) :
    offer best candidate = best ∨ offer best candidate = candidate := by
  unfold offer
  split
  · exact .inr rfl
  · exact .inl rfl

theorem offer_offer (best candidate : ℕ × Fin n × Fin n) :
    offer (offer best candidate) candidate = offer best candidate := by
  have hle := offer_le_right best candidate
  rw [offer, if_neg hle.not_gt]

variable (x : X) (state target : Fin n) (base : ℕ) (metric : Vector ℕ n) (column : Column n)

theorem at_tryInput (input : Fin n) :
    (tryInput cost x state base column input).at target =
      if input = target then offer (column.at target) (base + cost x state target, state, target)
      else column.at target := by
  by_cases htarget : input = target
  · subst htarget
    rw [if_pos rfl]
    by_cases hless : base + cost x state input < column.metric[input]
    · simp [tryInput, Column.at, offer, show _ < column.metric[(input : ℕ)] from hless]
    · simp [tryInput, Column.at, offer, show ¬ _ < column.metric[(input : ℕ)] from hless]
  · have hvalue : (input : ℕ) ≠ target := fun h ↦ htarget (Fin.ext h)
    rw [if_neg htarget]
    by_cases hless : base + cost x state input < column.metric[input]
    · simp [tryInput, Column.at, show _ < column.metric[(input : ℕ)] from hless, hvalue]
    · simp [tryInput, Column.at, show ¬ _ < column.metric[(input : ℕ)] from hless]

theorem at_foldl_tryInput (inputs : List (Fin n)) :
    (inputs.foldl (tryInput cost x state base) column).at target =
      if target ∈ inputs then offer (column.at target) (base + cost x state target, state, target)
      else column.at target := by
  induction inputs generalizing column with
  | nil => simp
  | cons input inputs ih =>
    rw [List.foldl_cons, ih, at_tryInput]
    by_cases hinput : input = target
    · subst hinput
      simp [offer_offer]
    · simp [hinput, Ne.symm hinput]

theorem at_tryState :
    (tryState cost limit metric x column state).at target =
      if metric[state] = limit then column.at target
      else offer (column.at target) (metric[state] + cost x state target, state, target) := by
  unfold tryState
  split
  · rfl
  · rw [at_foldl_tryInput, if_pos (List.mem_finRange target)]

theorem at_foldl_tryState_le (states : List (Fin n)) :
    ((states.foldl (tryState cost limit metric x) column).at target).1 ≤ (column.at target).1 := by
  induction states generalizing column with
  | nil => exact le_rfl
  | cons state states ih =>
    apply (ih (tryState cost limit metric x column state)).trans
    rw [at_tryState]
    split
    · exact le_rfl
    · exact offer_le_left _ _

theorem at_foldl_tryState_le_of_mem {states : List (Fin n)} (hmem : state ∈ states)
    (hreached : metric[state] ≠ limit) :
    ((states.foldl (tryState cost limit metric x) column).at target).1 ≤
      metric[state] + cost x state target := by
  induction states generalizing column with
  | nil => cases hmem
  | cons first states ih =>
    rw [List.foldl_cons]
    rcases List.mem_cons.mp hmem with hfirst | hrest
    · subst hfirst
      apply (at_foldl_tryState_le cost limit x target metric _ states).trans
      rw [at_tryState, if_neg hreached]
      exact offer_le_right _ _
    · exact ih _ hrest

theorem at_foldl_tryState_eq (states : List (Fin n)) :
    (states.foldl (tryState cost limit metric x) column).at target = column.at target ∨
      ∃ state, metric[state] ≠ limit ∧
        (states.foldl (tryState cost limit metric x) column).at target =
          (metric[state] + cost x state target, state, target) := by
  induction states generalizing column with
  | nil => exact .inl rfl
  | cons state states ih =>
    rw [List.foldl_cons]
    rcases ih (tryState cost limit metric x column state) with hkept | hlater
    · rw [hkept, at_tryState]
      split
      · exact .inl rfl
      · next hreached =>
        apply (offer_eq (column.at target) _).imp_right
        intro htaken
        exact ⟨state, hreached, htaken⟩
    · exact .inr hlater

section Step

variable {cost limit x state target metric} [NeZero n]

/-- No state is entered for more than what it costs from a state that was reached. -/
theorem step_le (hreached : metric[state] ≠ limit) :
    (step cost limit metric x).metric[target] ≤ metric[state] + cost x state target :=
  at_foldl_tryState_le_of_mem cost limit x state target metric _ (List.mem_finRange state) hreached

/-- A state that is entered is entered from a state that was reached, for what that costs. -/
theorem step_entered (hentered : (step cost limit metric x).metric[target] ≠ limit) :
    ∃ state, metric[state] ≠ limit ∧
      (step cost limit metric x).metric[target] = metric[state] + cost x state target ∧
      (step cost limit metric x).entered[target] = (state, target) := by
  have hfold := at_foldl_tryState_eq cost limit x target metric
    ⟨Vector.replicate n limit, Vector.replicate n (0, 0)⟩ (List.finRange n)
  rcases hfold with hkept | ⟨state, hreached, htaken⟩
  · have hmetric : (step cost limit metric x).metric[target] = limit :=
      (congrArg Prod.fst hkept).trans (by simp [Column.at])
    exact absurd hmetric hentered
  · exact ⟨state, hreached, congrArg Prod.fst htaken, congrArg Prod.snd htaken⟩

end Step

/-! ## Whole runs -/

section Run

variable {cost limit} {bound : ℕ}

theorem pathCost_le (hcost : ∀ x s t, cost x s t ≤ bound) (symbols : List X) (state : Fin n)
    (inputs : List (Fin n)) : pathCost cost state inputs symbols ≤ bound * symbols.length := by
  induction symbols generalizing state inputs with
  | nil => cases inputs <;> simp [pathCost]
  | cons x symbols ih =>
    cases inputs with
    | nil => simp [pathCost]
    | cons input inputs =>
      have hhead := hcost x state input
      have htail := ih input inputs
      rw [pathCost, List.length_cons, Nat.mul_succ]
      omega

variable [NeZero n]

/-- The metric of a state is at most what any path into it costs. -/
theorem forward_le (hcost : ∀ x s t, cost x s t ≤ bound) (symbols : List X) (metric : Vector ℕ n)
    (state : Fin n) (inputs : List (Fin n)) (hlength : inputs.length = symbols.length)
    (hlimit : metric[state] + bound * symbols.length < limit) :
    (forward cost limit metric symbols).1[finish state inputs] ≤
      metric[state] + pathCost cost state inputs symbols := by
  induction symbols generalizing metric state inputs with
  | nil =>
    obtain rfl := List.length_eq_zero_iff.mp hlength
    exact le_rfl
  | cons x symbols ih =>
    match inputs, hlength with
    | input :: inputs, hlength =>
      have hreached : metric[state] ≠ limit := by omega
      have hstep : (step cost limit metric x).metric[input] ≤ metric[state] + cost x state input :=
        step_le hreached
      have hbound := hcost x state input
      have hrest : (step cost limit metric x).metric[input] + bound * symbols.length < limit := by
        rw [List.length_cons, Nat.mul_succ] at hlimit
        omega
      calc
        _ ≤ (step cost limit metric x).metric[input] + pathCost cost input inputs symbols :=
          ih _ input inputs (Nat.succ.inj hlength) hrest
        _ ≤ metric[state] + cost x state input + pathCost cost input inputs symbols :=
          Nat.add_le_add_right hstep _
        _ = metric[state] + pathCost cost state (input :: inputs) (x :: symbols) := by
          rw [pathCost, Nat.add_assoc]

/-- The path traced from a state that was reached ends there and costs its metric. -/
theorem traceback_attains (symbols : List X) (metric : Vector ℕ n) (target : Fin n)
    (hentered : (forward cost limit metric symbols).1[target] ≠ limit) :
    ∃ first inputs, traceback (forward cost limit metric symbols).2 target = (first, inputs) ∧
      inputs.length = symbols.length ∧ finish first inputs = target ∧ metric[first] ≠ limit ∧
      metric[first] + pathCost cost first inputs symbols =
        (forward cost limit metric symbols).1[target] := by
  induction symbols generalizing metric with
  | nil => exact ⟨target, [], rfl, rfl, rfl, hentered, rfl⟩
  | cons x symbols ih =>
    obtain ⟨entered, inputs, htrace, hlength, hfinish, hreached, htotal⟩ :=
      ih (step cost limit metric x).metric hentered
    obtain ⟨state, hstate, hmetric, hstep⟩ := step_entered hreached
    refine ⟨state, entered :: inputs, ?_, congrArg (· + 1) hlength, hfinish, hstate, ?_⟩
    · simp only [forward, traceback, htrace, hstep]
    · rw [pathCost, ← Nat.add_assoc, ← hmetric]
      exact htotal

theorem start_zero : (start limit : Vector ℕ n)[(0 : Fin n)] = 0 := by
  simp [start]

theorem eq_zero_of_start {state : Fin n} (hreached : (start limit)[state] ≠ limit) : state = 0 := by
  by_contra hstate
  have hvalue : 0 ≠ (state : ℕ) := fun h ↦ hstate (Fin.ext h.symm)
  exact hreached (by simp [start, hvalue])

/-- The decoded path starts and ends in state zero, and no path that does costs less. -/
theorem decode_best (hcost : ∀ x s t, cost x s t ≤ bound) (symbols : List X)
    (hlimit : bound * symbols.length < limit) {inputs : List (Fin n)}
    (hlength : inputs.length = symbols.length) (hfinish : finish 0 inputs = 0) :
    (decode cost limit symbols).length = symbols.length ∧
      finish 0 (decode cost limit symbols) = 0 ∧
      pathCost cost 0 (decode cost limit symbols) symbols ≤ pathCost cost 0 inputs symbols := by
  have hstart : (start limit : Vector ℕ n)[(0 : Fin n)] + bound * symbols.length < limit := by
    rw [start_zero, Nat.zero_add]
    exact hlimit
  have hbest := forward_le hcost symbols (start limit) 0 inputs hlength hstart
  simp only [hfinish, start_zero, Nat.zero_add] at hbest
  have hentered : (forward cost limit (start limit) symbols).1[(0 : Fin n)] ≠ limit := by
    have htotal := pathCost_le hcost symbols 0 inputs
    omega
  obtain ⟨first, decoded, htrace, hdecoded, hends, hreached, htotal⟩ :=
    traceback_attains symbols (start limit) 0 hentered
  obtain rfl := eq_zero_of_start hreached
  rw [start_zero, Nat.zero_add] at htotal
  have hdecode : decode cost limit symbols = decoded := congrArg Prod.snd htrace
  rw [hdecode]
  exact ⟨hdecoded, hends, htotal.trans_le hbest⟩

end Run

/-! ## Codes of two letters an input -/

section Code

variable {α : Type*} [DecidableEq α]

/-- The places where two words differ. -/
def distance (sent received : List α) : ℕ := (sent.zip received).countP fun pair ↦ pair.1 ≠ pair.2

theorem distance_cons (a b : α) (sent received : List α) :
    distance (a :: sent) (b :: received) = (if a = b then 0 else 1) + distance sent received := by
  unfold distance
  rw [List.zip_cons_cons, List.countP_cons, Nat.add_comm]
  by_cases hletter : a = b <;> simp [hletter]

theorem distance_self (word : List α) : distance word word = 0 := by
  induction word with
  | nil => rfl
  | cons letter word ih => rw [distance_cons, if_pos rfl, ih]

theorem eq_of_distance {sent received : List α} (hlength : sent.length = received.length)
    (hdistance : distance sent received = 0) : sent = received := by
  induction sent generalizing received with
  | nil => exact (List.length_eq_zero_iff.mp hlength.symm).symm
  | cons a sent ih =>
    match received, hlength with
    | b :: received, hlength =>
      rw [distance_cons] at hdistance
      split at hdistance
      · next hletter =>
        subst hletter
        rw [ih (Nat.succ.inj hlength) (by omega)]
      · omega

/-- Words that are read in another order differ in as many places. -/
theorem distance_map_perm {ι : Type*} {order other : List ι} (hperm : order.Perm other) (f g : ι → α) :
    distance (order.map f) (order.map g) = distance (other.map f) (other.map g) := by
  unfold distance
  rw [List.zip_map', List.zip_map', List.countP_map, List.countP_map]
  exact hperm.countP_eq _

variable (output : Fin n → Fin n → α × α)

/-- The letters of a path. -/
def encode : Fin n → List (Fin n) → List α
  | _, [] => []
  | state, input :: inputs =>
    (output state input).1 :: (output state input).2 :: encode input inputs

def letterCost (received : α × α) (state input : Fin n) : ℕ :=
  (if (output state input).1 = received.1 then 0 else 1) +
    if (output state input).2 = received.2 then 0 else 1

/-- Whole pairs of letters. -/
def pairs {β : Type*} : List β → List (β × β)
  | a :: b :: rest => (a, b) :: pairs rest
  | _ => []

theorem letterCost_le (received : α × α) (state input : Fin n) :
    letterCost output received state input ≤ 2 := by
  unfold letterCost
  split <;> split <;> omega

theorem length_pairs {β : Type*} {letters : List β} (count : ℕ) (hlength : letters.length = count * 2) :
    (pairs letters).length = count := by
  induction count generalizing letters with
  | zero =>
    obtain rfl := List.length_eq_zero_iff.mp (hlength.trans (Nat.zero_mul 2))
    rfl
  | succ count ih =>
    match letters, hlength with
    | [a], hlength =>
      rw [List.length_singleton] at hlength
      omega
    | a :: b :: rest, hlength =>
      have hrest : rest.length = count * 2 := by
        simp only [List.length_cons] at hlength
        omega
      rw [pairs, List.length_cons, ih hrest]

theorem pairs_map {β γ : Type*} (f : β → γ) (letters : List β) :
    pairs (letters.map f) = (pairs letters).map (Prod.map f f) := by
  fun_induction pairs letters with
  | case1 a b rest ih => rw [List.map_cons, List.map_cons, pairs, ih, List.map_cons, Prod.map]
  | case2 letters hshort =>
    match letters, hshort with
    | [], _ => rfl
    | [a], _ => rfl
    | a :: b :: rest, hshort => exact absurd rfl (hshort a b rest)

omit [DecidableEq α] in
theorem length_encode (state : Fin n) (inputs : List (Fin n)) :
    (encode output state inputs).length = inputs.length * 2 := by
  induction inputs generalizing state with
  | nil => rfl
  | cons input inputs ih =>
    simp only [encode, List.length_cons, ih]
    omega

omit [DecidableEq α] in
theorem forall_mem_encode (holds : α → Prop)
    (houtput : ∀ state input, holds (output state input).1 ∧ holds (output state input).2)
    (state : Fin n) (inputs : List (Fin n)) : ∀ letter ∈ encode output state inputs, holds letter := by
  induction inputs generalizing state with
  | nil => exact fun _ hletter ↦ absurd hletter List.not_mem_nil
  | cons input inputs ih =>
    simp only [encode, List.forall_mem_cons]
    exact ⟨(houtput state input).1, (houtput state input).2, ih input⟩

/-- A path costs what its letters differ in. -/
theorem pathCost_letterCost (state : Fin n) (inputs : List (Fin n)) (received : List α)
    (hlength : received.length = inputs.length * 2) :
    pathCost (letterCost output) state inputs (pairs received) =
      distance (encode output state inputs) received := by
  induction inputs generalizing state received with
  | nil =>
    obtain rfl := List.length_eq_zero_iff.mp (by simpa using hlength)
    rfl
  | cons input inputs ih =>
    match received, hlength with
    | [a], hlength =>
      simp only [List.length_cons, List.length_nil] at hlength
      omega
    | a :: b :: received, hlength =>
      have hrest : received.length = inputs.length * 2 := by
        simp only [List.length_cons] at hlength
        omega
      rw [pairs, pathCost, encode, distance_cons, distance_cons, ih input received hrest, letterCost,
        Nat.add_assoc]

omit [DecidableEq α] in
theorem encode_injective (houtput : ∀ state, Function.Injective (output state)) (state : Fin n) :
    Function.Injective (encode output state) := by
  intro first
  induction first generalizing state with
  | nil =>
    intro second hencode
    cases second with
    | nil => rfl
    | cons input inputs => simp [encode] at hencode
  | cons a first ih =>
    intro second hencode
    cases second with
    | nil => simp [encode] at hencode
    | cons b second =>
      simp only [encode, List.cons.injEq] at hencode
      obtain ⟨hlow, hhigh, hrest⟩ := hencode
      obtain rfl := houtput state (Prod.ext hlow hhigh)
      rw [ih a hrest]

/-- The path the decoder returns is closed by the input zero, and no path that is differs from the received
letters in fewer places. -/
theorem decode_nearest [NeZero n] (limit : ℕ) {count : ℕ} {received : List α}
    (hlength : received.length = (count + 1) * 2) (hlimit : (count + 1) * 2 < limit) :
    ∃ inputs, inputs.length = count ∧
      decode (letterCost output) limit (pairs received) = inputs ++ [0] ∧
      ∀ other : List (Fin n), other.length = count →
        distance (encode output 0 (inputs ++ [0])) received ≤
          distance (encode output 0 (other ++ [0])) received := by
  have hpairs : (pairs received).length = count + 1 := length_pairs (count + 1) hlength
  have hbound : 2 * (pairs received).length < limit := by
    rw [hpairs, Nat.mul_comm]
    exact hlimit
  have hclosed : ∀ other : List (Fin n), other.length = count →
      (other ++ [0]).length = (pairs received).length := by
    intro other hother
    rw [hpairs, List.length_append, hother, List.length_singleton]
  have hbest := fun other hother ↦ decode_best (letterCost_le output) (pairs received) hbound
    (hclosed other hother) (finish_append_singleton 0 0 other)
  obtain ⟨hcount, hfinish, -⟩ := hbest (List.replicate count 0) List.length_replicate
  rcases List.eq_nil_or_concat (decode (letterCost output) limit (pairs received)) with
    hnil | ⟨inputs, last, hdecode⟩
  · rw [hnil, hpairs] at hcount
    cases hcount
  · rw [List.concat_eq_append] at hdecode
    rw [hdecode, finish_append_singleton] at hfinish
    subst hfinish
    have hinputs : inputs.length = count := by
      rw [hdecode, hpairs, List.length_append, List.length_singleton] at hcount
      exact Nat.succ.inj hcount
    refine ⟨inputs, hinputs, hdecode, ?_⟩
    intro other hother
    have hless := (hbest other hother).2.2
    have hletters : ∀ path : List (Fin n), path.length = count →
        received.length = (path ++ [0]).length * 2 := by
      intro path hpath
      rw [hlength, List.length_append, hpath, List.length_singleton]
    rw [hdecode, pathCost_letterCost output 0 _ _ (hletters inputs hinputs),
      pathCost_letterCost output 0 _ _ (hletters other hother)] at hless
    exact hless

end Code

end Sdrmm.FullTrellis
