import Mathlib.Tactic
import Sdrmm.Dsp.Conv7

/-!
# What the Viterbi decoder decodes

For generators that tap both ends of the register, the decoder of `Sdrmm.Dsp.Conv7` finds a most
likely input: no other bit string of the same length correlates better with the soft values it was
given.  The argument is the survivor recursion of `Sdrmm.Lib.Survivor` at the code's own gains.
The 32-bit metrics follow that recursion up to a common offset because they neither saturate nor
wrap, and the floor every state but zero starts from is too low to be part of a winning path.
-/

namespace Sdrmm.Conv7

open Bits Survivor

/-- The correlation of coded bits with soft values: a one adds the value, a zero subtracts it. -/
def correlation (coded : List Bool) (soft : List Soft) : ℤ :=
  (List.zipWith (fun bit value ↦ if bit then value.toInt else -value.toInt) coded soft).sum

theorem correlation_append (first second : List Bool) (early late : List Soft)
    (hlen : first.length = early.length) :
    correlation (first ++ second) (early ++ late) =
      correlation first early + correlation second late := by
  unfold correlation
  rw [List.zipWith_append hlen, List.sum_append]

theorem correlation_not (coded : List Bool) (soft : List Soft) :
    correlation (coded.map not) soft = -correlation coded soft := by
  unfold correlation
  induction coded generalizing soft with
  | nil => simp
  | cons bit coded ih =>
    cases soft with
    | nil => simp
    | cons value soft =>
      simp only [List.map_cons, List.zipWith_cons_cons, List.sum_cons, ih, neg_add]
      cases bit <;> simp

theorem correlation_abs_le (coded : List Bool) (soft : List Soft) :
    |correlation coded soft| ≤ soft.length * 2 ^ 15 := by
  unfold correlation
  induction soft generalizing coded with
  | nil => simp
  | cons value soft ih =>
    cases coded with
    | nil =>
      rw [List.zipWith_nil_left, List.sum_nil, abs_zero]
      positivity
    | cons bit coded =>
      have hlow := value.le_toInt
      have hhigh := value.toInt_lt
      have hvalue : |if bit then value.toInt else -value.toInt| ≤ 2 ^ 15 := by
        rw [abs_le]
        cases bit <;> simp <;> omega
      have htail := ih coded
      rw [List.zipWith_cons_cons, List.sum_cons, List.length_cons]
      calc
        |_ + _| ≤ |if bit then value.toInt else -value.toInt| +
            |(List.zipWith (fun bit (value : Soft) ↦ if bit then value.toInt else -value.toInt)
              coded soft).sum| := abs_add_le _ _
        _ ≤ 2 ^ 15 + soft.length * 2 ^ 15 := add_le_add hvalue htail
        _ = _ := by push_cast; ring

/-! ## The branch table -/

/-- The sum of the values whose bit is set in `mask`. -/
def picked (symbol : List Soft) (mask : ℕ) : ℤ :=
  (symbol.zipIdx.map fun (value, bit) ↦ if mask.testBit bit then value.toInt else 0).sum

theorem picked_snoc (symbol : List Soft) (value : Soft) (mask : ℕ) :
    picked (symbol ++ [value]) mask =
      picked symbol mask + if mask.testBit symbol.length then value.toInt else 0 := by
  simp [picked, List.zipIdx_append]

theorem picked_congr (symbol : List Soft) {first second : ℕ}
    (hagree : ∀ bit < symbol.length, first.testBit bit = second.testBit bit) :
    picked symbol first = picked symbol second := by
  unfold picked
  congr 1
  apply List.map_congr_left
  rintro ⟨value, bit⟩ hmem
  have hbit : bit < symbol.length := by
    have := List.snd_lt_add_of_mem_zipIdx hmem
    simpa using this
  simp only [hagree bit hbit]

theorem correlation_testBit (symbol : List Soft) (mask : ℕ) :
    correlation ((List.range symbol.length).map mask.testBit) symbol =
      -(symbol.map Int16.toInt).sum + 2 * picked symbol mask := by
  induction symbol using List.reverseRecOn with
  | nil => simp [correlation, picked]
  | append_singleton symbol value ih =>
    rw [List.length_append, List.length_singleton, List.range_succ, List.map_append,
      correlation_append _ _ _ _ (by simp), ih, picked_snoc, List.map_append, List.sum_append]
    simp only [correlation, List.map_cons, List.map_nil, List.zipWith_cons_cons,
      List.zipWith_nil_left, List.sum_cons, List.sum_nil]
    cases mask.testBit symbol.length <;> simp <;> ring

/-- The masks with top bit `bit`, filled in from the masks below. -/
def fillBit (bit : ℕ) (value : ℤ) (table : Vector ℤ 256) (count : ℕ) : Vector ℤ 256 :=
  (List.range count).foldl
    (fun branches mask ↦ branches.setIfInBounds (mask ||| 1 <<< bit)
      (branches.getD mask 0 + 2 * value)) table

theorem or_shift {bit mask : ℕ} (hmask : mask < 2 ^ bit) : mask ||| 1 <<< bit = mask + 2 ^ bit := by
  have hadd := Nat.two_pow_add_eq_or_of_lt hmask 1
  rw [Nat.mul_one] at hadd
  rw [Nat.one_shiftLeft, Nat.or_comm, ← hadd, Nat.add_comm]

theorem getD_setIfInBounds (table : Vector ℤ 256) (i j : ℕ) (value : ℤ) (hi : i < 256) :
    (table.setIfInBounds i value).getD j 0 = if j = i then value else table.getD j 0 := by
  by_cases hj : j < 256
  · by_cases heq : j = i
    · subst heq
      simp [Vector.getD, hj]
    · have hne : i ≠ j := fun h ↦ heq h.symm
      simp [Vector.getD, hj, heq, hne]
  · have hne : j ≠ i := by omega
    simp [Vector.getD, hj, hne]

theorem getD_fillBit {bit : ℕ} (value : ℤ) (table : Vector ℤ 256) (hbit : bit < 8) (count : ℕ)
    (hcount : count ≤ 2 ^ bit) (j : ℕ) :
    (fillBit bit value table count).getD j 0 =
      if 2 ^ bit ≤ j ∧ j < 2 ^ bit + count then table.getD (j - 2 ^ bit) 0 + 2 * value
      else table.getD j 0 := by
  have hpow : 2 ^ bit ≤ 128 := Nat.pow_le_pow_right (by norm_num) (Nat.le_of_lt_succ hbit)
  induction count generalizing j with
  | zero =>
    have hnot : ¬ (2 ^ bit ≤ j ∧ j < 2 ^ bit + 0) := by omega
    rw [if_neg hnot]
    rfl
  | succ count ih =>
    have hlow : count < 2 ^ bit := hcount
    have hstep : fillBit bit value table (count + 1) =
        (fillBit bit value table count).setIfInBounds (count + 2 ^ bit)
          ((fillBit bit value table count).getD count 0 + 2 * value) := by
      rw [fillBit, List.range_succ, List.foldl_append, List.foldl_cons, List.foldl_nil,
        or_shift hlow]
      rfl
    have hsource : ¬ (2 ^ bit ≤ count ∧ count < 2 ^ bit + count) := by omega
    rw [hstep, getD_setIfInBounds _ _ _ _ (by omega), ih (by omega), ih (by omega),
      if_neg hsource]
    by_cases heq : j = count + 2 ^ bit
    · have hin : 2 ^ bit ≤ j ∧ j < 2 ^ bit + (count + 1) := by omega
      have hback : j - 2 ^ bit = count := by omega
      rw [if_pos heq, if_pos hin, hback]
    · rw [if_neg heq]
      by_cases hin : 2 ^ bit ≤ j ∧ j < 2 ^ bit + count
      · rw [if_pos hin, if_pos (by omega)]
      · rw [if_neg hin, if_neg (by omega)]

/-- The table holds, for each mask, the correlation of that mask's bits with the symbol. -/
theorem getD_branchTable (symbol : List Soft) (hlen : symbol.length ≤ 8) (mask : ℕ)
    (hmask : mask < 2 ^ symbol.length) :
    (branchTable symbol).getD mask 0 =
      correlation ((List.range symbol.length).map mask.testBit) symbol := by
  rw [correlation_testBit]
  -- the base entry is the sum over the whole symbol, whatever prefix has been processed
  suffices hfront : ∀ (base : ℤ) (done : List Soft), done.length ≤ 8 →
      ∀ mask < 2 ^ done.length,
      (done.zipIdx.foldl (fun branches (value, bit) ↦
        fillBit bit value.toInt branches (1 <<< bit))
        ((Vector.replicate 256 0).setIfInBounds 0 base)).getD mask 0 =
        base + 2 * picked done mask from
    hfront _ symbol hlen mask hmask
  intro base done
  induction done using List.reverseRecOn with
  | nil =>
    intro _ mask hmask
    obtain rfl : mask = 0 := by simpa using hmask
    simp [picked, Vector.getD]
  | append_singleton done value ih =>
    intro hdone mask hmask
    rw [List.length_append, List.length_singleton] at hdone hmask
    rw [List.zipIdx_append, List.foldl_append, picked_snoc]
    simp only [List.zipIdx_cons, List.zipIdx_nil, List.foldl_cons, List.foldl_nil, Nat.zero_add]
    rw [getD_fillBit _ _ (by omega) _ (by rw [Nat.one_shiftLeft]), Nat.one_shiftLeft]
    have hpow : 2 ^ (done.length + 1) = 2 ^ done.length + 2 ^ done.length := by ring
    by_cases hhigh : 2 ^ done.length ≤ mask
    · have hrest : mask - 2 ^ done.length < 2 ^ done.length := by omega
      have hsplit : mask = 2 ^ done.length + (mask - 2 ^ done.length) := by omega
      have htop : mask.testBit done.length = true := by
        rw [hsplit, Nat.testBit_two_pow_add_eq, Nat.testBit_lt_two_pow hrest]
        rfl
      have hlow : picked done (mask - 2 ^ done.length) = picked done mask := by
        apply picked_congr
        intro bit hbit
        rw [hsplit, Nat.testBit_two_pow_add_gt hbit, Nat.add_sub_cancel_left]
      rw [if_pos (by omega), ih (by omega) _ hrest, hlow, htop, if_pos rfl]
      ring
    · have hbelow : mask < 2 ^ done.length := by omega
      rw [if_neg (by omega), ih (by omega) _ hbelow, Nat.testBit_lt_two_pow hbelow]
      simp

/-! ## Branch gains -/

/-- Every generator taps the newest and the oldest bit of the register. -/
def Generators.EndsTapped (generators : Generators) : Prop :=
  ∀ poly ∈ generators.polys, poly &&& 0x41 = 0x41

instance (generators : Generators) : Decidable generators.EndsTapped :=
  List.decidableBAll (fun poly ↦ poly &&& 0x41 = 0x41) generators.polys

/-- The correlation of one symbol with what the encoder sends from `state` for `input`. -/
def gain (code : ConvCode) (symbol : List Soft) (state : State) (input : Bool) : ℤ :=
  correlation (code.outputBits (code.branch.get (ConvCode.register state input))) symbol

theorem branch_get (code : ConvCode) (register : Fin 128) :
    code.branch.get register = code.branch[register] := rfl

theorem branch_new (generators : Generators) (register : Fin 128) :
    (ConvCode.new generators).branch[register] =
      ConvCode.branchMask generators.polys register.val := by
  simp [ConvCode.new]

theorem first_bit (generators : Generators) (register : Fin 128) :
    ((ConvCode.new generators).outputBits (ConvCode.new generators).branch[register])[0]? =
      some (ConvCode.parityOf (generators.polys.getD 0 0) register.val) := by
  have hcount : 0 < generators.polys.length := generators.count.1
  have houtputs : 0 < (ConvCode.new generators).outputs := hcount
  rw [branch_new, ConvCode.outputBits, List.getElem?_map, List.getElem?_range houtputs, Option.map_some,
    ConvCode.branchMask, Bits.testBit_assemble]
  rw [decide_eq_true hcount, Bool.true_and]

theorem branchMask_lt (polys : List UInt16) (register : ℕ) :
    ConvCode.branchMask polys register < 2 ^ polys.length := by
  apply Nat.lt_pow_two_of_testBit
  intro i hi
  simp [ConvCode.branchMask, testBit_assemble, Nat.not_lt.mpr hi]

theorem parityOf_flip {poly : UInt16} {bit : ℕ} (hbit : bit < 16)
    (htap : poly.toNat.testBit bit = true) (register : ℕ) :
    ConvCode.parityOf poly (register ^^^ 2 ^ bit) = !ConvCode.parityOf poly register := by
  have hodd := countOnes_odd_flip (register &&& poly.toNat)
    ((register ^^^ 2 ^ bit) &&& poly.toNat) bit hbit
    (by simp [htap])
    (by
      intro i hi
      simp [Nat.testBit_two_pow_of_ne hi.symm])
  rw [Bool.eq_iff_iff]
  simpa [ConvCode.parityOf] using hodd

theorem outputBits_flip {generators : Generators} {bit : ℕ} (hbit : bit < 16)
    (htap : ∀ poly ∈ generators.polys, poly.toNat.testBit bit = true) (register : ℕ) :
    (ConvCode.new generators).outputBits
        (ConvCode.branchMask generators.polys (register ^^^ 2 ^ bit)) =
      ((ConvCode.new generators).outputBits
        (ConvCode.branchMask generators.polys register)).map not := by
  unfold ConvCode.outputBits
  rw [List.map_map]
  apply List.map_congr_left
  intro index hindex
  have hlt : index < generators.polys.length := List.mem_range.mp hindex
  have hmem : generators.polys.getD index 0 ∈ generators.polys := by
    rw [List.getD_eq_getElem _ _ hlt]
    exact List.getElem_mem hlt
  simp only [ConvCode.branchMask, testBit_assemble, hlt, decide_true, Bool.true_and,
    Function.comp_apply, parityOf_flip hbit (htap _ hmem)]

theorem Generators.EndsTapped.testBit {generators : Generators} (htaps : generators.EndsTapped)
    {bit : ℕ} (hbit : Nat.testBit 0x41 bit = true) :
    ∀ poly ∈ generators.polys, poly.toNat.testBit bit = true := by
  intro poly hmem
  have hand : poly.toNat &&& 0x41 = 0x41 := by
    simpa using congrArg UInt16.toNat (htaps poly hmem)
  have htest := congrArg (fun word : ℕ ↦ word.testBit bit) hand
  simp only [Nat.testBit_and, hbit, Bool.and_true] at htest
  exact htest

/-- The two predecessors of a state send opposite bits. -/
theorem gain_odd {generators : Generators} (htaps : generators.EndsTapped) (symbol : List Soft)
    (state : State) (input : Bool) :
    gain (ConvCode.new generators) symbol (machine.pred state true) input =
      -gain (ConvCode.new generators) symbol (machine.pred state false) input := by
  have hregister : (ConvCode.register (machine.pred state true) input).val =
      (ConvCode.register (machine.pred state false) input).val ^^^ 2 ^ 0 := by
    revert state input
    decide
  rw [gain, gain, branch_get, branch_get, branch_new, branch_new, hregister,
    outputBits_flip (by norm_num) (htaps.testBit (by decide)), correlation_not]

/-- The two inputs of a state send opposite bits. -/
theorem gain_true {generators : Generators} (htaps : generators.EndsTapped) (symbol : List Soft)
    (state : State) :
    gain (ConvCode.new generators) symbol state true =
      -gain (ConvCode.new generators) symbol state false := by
  have hregister : (ConvCode.register state true).val =
      (ConvCode.register state false).val ^^^ 2 ^ 6 := by
    revert state
    decide
  rw [gain, gain, branch_get, branch_get, branch_new, branch_new, hregister,
    outputBits_flip (by norm_num) (htaps.testBit (by decide)), correlation_not]

theorem gain_abs_le (generators : Generators) {symbol : List Soft}
    (hlen : symbol.length = generators.polys.length) (state : State) (input : Bool) :
    |gain (ConvCode.new generators) symbol state input| ≤ 2 ^ 18 := by
  have hcount := generators.count.2
  have habs := correlation_abs_le ((ConvCode.new generators).outputBits
    (ConvCode.new generators).branch[ConvCode.register state input]) symbol
  have hsize : (symbol.length : ℤ) ≤ 8 := by exact_mod_cast hlen ▸ hcount
  rw [gain, branch_get]
  linarith

/-! ## One trellis step

Both steps compute the exact select and choice as long as no sum leaves the 32-bit range.
-/

def Metrics.at (metrics : Metrics) (state : State) : ℤ := metrics[state]

/-- No sum of a step leaves the 32-bit range. -/
def Exact (code : ConvCode) (metrics : Metrics) (symbol : List Soft) : Prop :=
  ∀ state odd, i32Min ≤ enter machine (gain code) metrics.at symbol state odd ∧
    enter machine (gain code) metrics.at symbol state odd ≤ i32Max

/-- What a step should produce: the survivor metrics and the word of decisions. -/
def Selects (code : ConvCode) (metrics : Metrics) (symbol : List Soft) (result : Metrics × ℕ) :
    Prop :=
  ∀ state, result.1.at state = select machine (gain code) metrics.at symbol state ∧
    result.2.testBit state.val = choice machine (gain code) metrics.at symbol state

theorem saturatingAdd_of_mem {a b : ℤ} (hlow : i32Min ≤ a + b) (hhigh : a + b ≤ i32Max) :
    saturatingAdd a b = a + b := by
  rw [saturatingAdd, min_eq_right hhigh, max_eq_right hlow]

theorem wrap32_of_mem {a : ℤ} (hlow : i32Min ≤ a) (hhigh : a ≤ i32Max) : wrap32 a = a := by
  unfold i32Min at hlow
  unfold i32Max at hhigh
  exact Int.bmod_eq_of_le (by omega) (by omega)

theorem testBit_decisionWord (odd : State → Bool) (state : State) :
    (decisionWord odd).testBit state.val = odd state := by
  rw [decisionWord, testBit_assemble, decide_eq_true state.isLt, Bool.true_and]
  congr 1
  exact Fin.ext (Nat.mod_eq_of_lt state.isLt)

theorem getD_branch (generators : Generators) {symbol : List Soft}
    (hlen : symbol.length = generators.polys.length) (register : Fin 128) :
    (branchTable symbol).getD (ConvCode.new generators).branch[register] 0 =
      correlation ((ConvCode.new generators).outputBits
        (ConvCode.new generators).branch[register]) symbol := by
  have hlt : (ConvCode.new generators).branch[register] < 2 ^ symbol.length := by
    rw [branch_new, hlen]
    exact branchMask_lt _ _
  rw [getD_branchTable symbol (hlen ▸ generators.count.2) _ hlt, hlen]
  rfl

/-- Where the scalar step reads what a state is entered with. -/
theorem scalar_layout (state : State) :
    previous state = machine.pred state false ∧ previous state + 1 = machine.pred state true ∧
      Fin.ofNat 128 (state.val * 2) =
        ConvCode.register (machine.pred state false) (machine.input state) ∧
      Fin.ofNat 128 (state.val * 2 + 1) =
        ConvCode.register (machine.pred state true) (machine.input state) := by
  revert state
  decide

theorem add_branch {generators : Generators} (metrics : Metrics) {symbol : List Soft}
    (hlen : symbol.length = generators.polys.length) (state : State) (odd : Bool)
    (index : State) (register : Fin 128) (hindex : index = machine.pred state odd)
    (hregister : register = ConvCode.register (machine.pred state odd) (machine.input state)) :
    metrics[index] + (branchTable symbol).getD (ConvCode.new generators).branch[register] 0 =
      enter machine (gain (ConvCode.new generators)) metrics.at symbol state odd := by
  subst hindex hregister
  rw [getD_branch generators hlen]
  rfl

theorem saturatingAdd_branch {generators : Generators} {metrics : Metrics} {symbol : List Soft}
    (hlen : symbol.length = generators.polys.length)
    (hexact : Exact (ConvCode.new generators) metrics symbol) (state : State) (odd : Bool)
    (index : State) (register : Fin 128) (hindex : index = machine.pred state odd)
    (hregister : register = ConvCode.register (machine.pred state odd) (machine.input state)) :
    saturatingAdd metrics[index]
        ((branchTable symbol).getD (ConvCode.new generators).branch[register] 0) =
      enter machine (gain (ConvCode.new generators)) metrics.at symbol state odd := by
  have hadd := add_branch metrics hlen state odd index register hindex hregister
  rw [← hadd]
  apply saturatingAdd_of_mem
  · rw [hadd]
    exact (hexact state odd).1
  · rw [hadd]
    exact (hexact state odd).2

theorem scalarStep_selects {generators : Generators} {metrics : Metrics} {symbol : List Soft}
    (hlen : symbol.length = generators.polys.length)
    (hexact : Exact (ConvCode.new generators) metrics symbol) :
    Selects (ConvCode.new generators) metrics symbol
      (scalarStep (ConvCode.new generators) metrics symbol) := by
  intro state
  obtain ⟨heven, hodd, hfirstRegister, hsecondRegister⟩ := scalar_layout state
  have hfirst := saturatingAdd_branch hlen hexact state false (previous state)
    (Fin.ofNat 128 (state.val * 2)) heven hfirstRegister
  have hsecond := saturatingAdd_branch hlen hexact state true (previous state + 1)
    (Fin.ofNat 128 (state.val * 2 + 1)) hodd hsecondRegister
  refine ⟨?_, ?_⟩
  · simp only [scalarStep, Metrics.at, Fin.getElem_fin, Vector.getElem_ofFn, Fin.eta]
    exact congrArg₂ max hfirst hsecond
  · simp only [scalarStep, testBit_decisionWord]
    exact congrArg₂ (fun a b : ℤ ↦ decide (a < b)) hfirst hsecond

theorem xor_sign (value : ℤ) (bit : Bool) :
    (value.xor (if bit then 0 else -1)) - (if bit then 0 else -1) =
      if bit then value else -value := by
  cases bit with
  | true =>
    cases value with
    | ofNat n => simp [Int.xor]
    | negSucc n => simp [Int.xor]
  | false =>
    cases value with
    | ofNat n =>
      change Int.negSucc (n ^^^ 0) + 1 = _
      simp
    | negSucc n =>
      change ((n ^^^ 0 : ℕ) : ℤ) + 1 = _
      simp

/-- The branch metric of the butterfly of `state`, from the sign masks. -/
theorem butterflyBranch_eq {generators : Generators} (htwo : generators.polys.length = 2)
    (x y : Soft) (state : State) :
    butterflyBranch (ConvCode.pairSignsOf (ConvCode.new generators).branch) (x.toInt, y.toInt)
        (Fin.ofNat 32 state.val) =
      gain (ConvCode.new generators) [x, y] (machine.pred state false) false := by
  have hregister : 2 * (Fin.ofNat 32 state.val).val =
      (ConvCode.register (machine.pred state false) false).val := by
    revert state
    decide
  have hgain (register : Fin 128) :
      correlation ((ConvCode.new generators).outputBits
        (ConvCode.new generators).branch[register]) [x, y] =
      (if (ConvCode.new generators).branch[register].testBit 0 then x.toInt else -x.toInt) +
        (if (ConvCode.new generators).branch[register].testBit 1 then y.toInt else -y.toInt) := by
    have houtputs : (ConvCode.new generators).outputs = 2 := htwo
    simp [correlation, ConvCode.outputBits, houtputs, List.range_succ]
  unfold butterflyBranch ConvCode.pairSignsOf
  rw [gain, branch_get, hgain]
  simp only [Fin.getElem_fin, Vector.getElem_ofFn, ConvCode.pairSign, xor_sign, hregister]

theorem butterflyStep_selects {generators : Generators} (htaps : generators.EndsTapped)
    (htwo : generators.polys.length = 2) {metrics : Metrics} (x y : Soft)
    (hexact : Exact (ConvCode.new generators) metrics [x, y]) :
    Selects (ConvCode.new generators) metrics [x, y]
      (butterflyStep metrics (ConvCode.pairSignsOf (ConvCode.new generators).branch)
        (x.toInt, y.toInt)) := by
  intro state
  have hindex : 2 * (Fin.ofNat 32 state.val).val = (machine.pred state false).val ∧
      2 * (Fin.ofNat 32 state.val).val + 1 = (machine.pred state true).val := by
    revert state
    decide
  have heven : metrics[2 * (Fin.ofNat 32 state.val).val] =
      metrics.at (machine.pred state false) := by
    simp only [Metrics.at, Fin.getElem_fin, hindex.1]
  have hodd : metrics[2 * (Fin.ofNat 32 state.val).val + 1] =
      metrics.at (machine.pred state true) := by
    simp only [Metrics.at, Fin.getElem_fin, hindex.2]
  have hbranch := butterflyBranch_eq htwo x y state
  have hfalse := wrap32_of_mem (hexact state false).1 (hexact state false).2
  have htrue := wrap32_of_mem (hexact state true).1 (hexact state true).2
  have hopposite := gain_odd htaps [x, y] state (machine.input state)
  have hselect {first second : ℤ}
      (hfirst : first = enter machine (gain (ConvCode.new generators)) metrics.at [x, y] state false)
      (hsecond : second =
        enter machine (gain (ConvCode.new generators)) metrics.at [x, y] state true) :
      max first second = select machine (gain (ConvCode.new generators)) metrics.at [x, y] state ∧
        decide (first < second) =
          choice machine (gain (ConvCode.new generators)) metrics.at [x, y] state := by
    subst hfirst hsecond
    exact ⟨rfl, rfl⟩
  simp only [butterflyStep, Metrics.at, Fin.getElem_fin, Vector.getElem_ofFn, testBit_decisionWord,
    heven, hodd, hbranch]
  unfold enter at hfalse htrue hselect
  by_cases hlow : state.val < 32
  · have hinput : machine.input state = false := by
      clear * - hlow
      revert state
      decide
    rw [hinput] at hfalse htrue hopposite
    rw [hinput, hopposite] at hselect
    rw [hopposite] at htrue
    simp only [hlow, if_true]
    exact hselect hfalse htrue
  · have hinput : machine.input state = true := by
      clear * - hlow
      revert state
      decide
    have hflip := gain_true htaps [x, y] (machine.pred state false)
    rw [hinput] at hfalse htrue hopposite
    rw [hflip] at hopposite hfalse
    rw [neg_neg] at hopposite
    rw [hinput, hopposite, hflip] at hselect
    rw [hopposite] at htrue
    simp only [hlow, if_false]
    exact hselect hfalse htrue

/-- The arithmetic of either step is exact, whichever the code selects. -/
theorem step_selects {generators : Generators} (htaps : generators.EndsTapped) {t : Trellis}
    {symbol : List Soft} (hlen : symbol.length = generators.polys.length)
    (hexact : Exact (ConvCode.new generators) t.metrics symbol) :
    Selects (ConvCode.new generators) t.metrics symbol
      ((t.step (ConvCode.new generators) symbol).1.metrics,
        (t.step (ConvCode.new generators) symbol).2) := by
  have hall : generators.polys.all (fun poly ↦ poly &&& 0x41 == 0x41) = true := by
    simpa [Generators.EndsTapped] using htaps
  by_cases htwo : generators.polys.length = 2
  · have hsigns : (ConvCode.new generators).pairSigns =
        some (ConvCode.pairSignsOf (ConvCode.new generators).branch) := by
      simp only [ConvCode.new, htwo, hall, and_self, if_true]
    match symbol, hlen.trans htwo with
    | [x, y], _ =>
      have hselects := butterflyStep_selects htaps htwo x y hexact
      simpa [Trellis.step, hsigns] using hselects
  · have hsigns : (ConvCode.new generators).pairSigns = none := by
      simp only [ConvCode.new, htwo, false_and, if_false]
    have hselects := scalarStep_selects hlen hexact
    simpa [Trellis.step, hsigns] using hselects

/-! ## The run -/

/-- The metrics of `Trellis::restart`. -/
def start (state : State) : ℤ := if state.val = 0 then 0 else Trellis.floor

theorem restart_metrics (t : Trellis) : t.restart.metrics.at = start := by
  funext state
  simp only [Trellis.restart, Trellis.metrics_setMetrics, Metrics.at, start]
  by_cases hzero : state = 0
  · subst hzero
    simp
  · have hne : 0 ≠ state.val := fun h ↦ hzero (Fin.ext h.symm)
    simp [hzero, hne]

theorem start_sub_le (s t : State) : start s - start t ≤ 2 ^ 24 := by
  unfold start Trellis.floor
  split <;> split <;> norm_num

theorem start_nonpos (state : State) : start state ≤ 0 := by
  unfold start Trellis.floor
  split <;> norm_num

/-- The survivor metrics after the symbols `seen`, exactly. -/
def survivors (generators : Generators) (seen : List (List Soft)) : State → ℤ :=
  values machine (gain (ConvCode.new generators)) start seen

/-- The largest distance between two survivor metrics. -/
def spread : ℤ := 2 ^ 24 + 12 * 2 ^ 18

theorem values_sub_le {generators : Generators} {first : State → ℤ}
    (hfirst : ∀ s t, first s - first t ≤ 2 ^ 24) {seen : List (List Soft)}
    (hseen : ∀ symbol ∈ seen, symbol.length = generators.polys.length) (s t : State) :
    values machine (gain (ConvCode.new generators)) first seen s -
      values machine (gain (ConvCode.new generators)) first seen t ≤ spread := by
  have hle := machine_forgetful.spread_le (by norm_num : (0 : ℤ) ≤ 2 ^ 18)
    (fun symbol hmem ↦ gain_abs_le generators (hseen symbol hmem)) first _ hfirst s t
  exact hle.trans_eq (by norm_num [spread])

theorem survivors_sub_le {generators : Generators} {seen : List (List Soft)}
    (hseen : ∀ symbol ∈ seen, symbol.length = generators.polys.length) (s t : State) :
    survivors generators seen s - survivors generators seen t ≤ spread :=
  values_sub_le start_sub_le hseen s t

/-- The decoder's metrics are the exact ones less a common offset that keeps them in range, and
its decision words are the exact choices. -/
structure Tracks (generators : Generators) (seen : List (List Soft)) (v : ViterbiK7) : Prop where
  code : v.code = ConvCode.new generators
  steps : v.trellis.normalizationSteps < 256
  decisions : v.decisions.map (fun word (state : State) ↦ word.testBit state.val) =
    choices machine (gain (ConvCode.new generators)) start seen
  metrics : ∃ off, v.trellis.metrics.at = (fun state ↦ survivors generators seen state - off) ∧
    (∃ state, off ≤ survivors generators seen state) ∧
    ∀ state, survivors generators seen state - off ≤
      Trellis.ceiling + 2 ^ 18 * v.trellis.normalizationSteps

theorem le_peak (t : Trellis) (state : State) : t.metrics.at state ≤ t.peak := by
  have hmem : t.metrics.at state ∈ t.metrics.toList := by
    simp [Metrics.at]
  obtain ⟨peak, hpeak⟩ : ∃ peak, t.metrics.toList.max? = some peak := by
    cases hmax : t.metrics.toList.max? with
    | none => simp [List.max?_eq_none_iff.mp hmax] at hmem
    | some peak => exact ⟨peak, rfl⟩
  rw [Trellis.peak, hpeak]
  exact (List.max?_eq_some_iff.mp hpeak).2 _ hmem

theorem exists_eq_peak (t : Trellis) : ∃ state, t.metrics.at state = t.peak := by
  cases hmax : t.metrics.toList.max? with
  | none =>
    have hnil := congrArg List.length (List.max?_eq_none_iff.mp hmax)
    simp at hnil
  | some peak =>
    obtain ⟨i, hi, heq⟩ := List.getElem_of_mem (List.max?_eq_some_iff.mp hmax).1
    refine ⟨⟨i, by simpa using hi⟩, ?_⟩
    rw [Trellis.peak, hmax]
    simpa [Metrics.at] using heq

/-- Rescaling moves every metric by the same amount. -/
theorem normalize_metrics (t : Trellis) {low : ℤ} (hlow : low ≤ 0)
    (hlowest : ∃ state, low ≤ t.metrics.at state)
    (hceiling : ∀ state, t.metrics.at state ≤
      Trellis.ceiling + 2 ^ 18 * (t.normalizationSteps + 1)) :
    t.normalize.normalizationSteps < 256 ∧
      ∃ shift, t.normalize.metrics.at = (fun state ↦ t.metrics.at state - shift) ∧
        (∃ state, low + shift ≤ t.metrics.at state) ∧
        ∀ state, t.metrics.at state - shift ≤
          Trellis.ceiling + 2 ^ 18 * t.normalize.normalizationSteps := by
  have hkept : ∃ state, low + 0 ≤ t.metrics.at state := by rwa [add_zero]
  unfold Trellis.normalize
  by_cases hcount : t.normalizationSteps + 1 < 256
  · rw [if_pos hcount]
    refine ⟨hcount, 0, by simp only [Trellis.metrics_setSteps, sub_zero], hkept, ?_⟩
    intro state
    rw [sub_zero, Trellis.normalizationSteps_setSteps]
    exact_mod_cast hceiling state
  · rw [if_neg hcount]
    by_cases hpeak : Trellis.ceiling < t.peak
    · obtain ⟨top, htop⟩ := exists_eq_peak t
      rw [if_pos hpeak]
      refine ⟨by simp, t.peak, by funext state; simp [Metrics.at], ⟨top, by linarith⟩, ?_⟩
      intro state
      have hzero : t.metrics.at state - t.peak ≤ 0 := sub_nonpos.mpr (le_peak t state)
      refine hzero.trans ?_
      unfold Trellis.ceiling
      positivity
    · rw [if_neg hpeak]
      refine ⟨by simp, 0, by simp only [Trellis.metrics_setSteps, sub_zero], hkept, ?_⟩
      intro state
      rw [sub_zero, Trellis.normalizationSteps_setSteps, Nat.cast_zero, mul_zero, add_zero]
      exact (le_peak t state).trans (not_lt.mp hpeak)

/-- The metrics of a trellis are the exact ones less an offset; the best of them is at least `low` and
rescaling keeps them all from growing. -/
structure Follows (exact : State → ℤ) (low : ℤ) (t : Trellis) : Prop where
  steps : t.normalizationSteps < 256
  metrics : ∃ off, t.metrics.at = (fun state ↦ exact state - off) ∧
    (∃ state, low + off ≤ exact state) ∧
    ∀ state, exact state - off ≤ Trellis.ceiling + 2 ^ 18 * t.normalizationSteps

theorem Follows.exact {generators : Generators} {exact : State → ℤ} {low : ℤ} {t : Trellis}
    (hfollows : Follows exact low t) (hlow : Trellis.floor ≤ low)
    (hspread : ∀ s t, exact s - exact t ≤ spread) {symbol : List Soft}
    (hlen : symbol.length = generators.polys.length) :
    Exact (ConvCode.new generators) t.metrics symbol := by
  obtain ⟨off, hmetrics, ⟨top, htop⟩, hceiling⟩ := hfollows.metrics
  have hsteps : (t.normalizationSteps : ℤ) ≤ 255 := by
    exact_mod_cast Nat.le_of_lt_succ hfollows.steps
  intro state odd
  have hgain := abs_le.mp (gain_abs_le generators hlen (machine.pred state odd)
    (machine.input state))
  have hhigh := hceiling (machine.pred state odd)
  have hdown := hspread top (machine.pred state odd)
  unfold enter i32Min i32Max
  rw [hmetrics]
  unfold Trellis.ceiling at hhigh
  unfold Trellis.floor at hlow
  unfold spread at hdown
  constructor <;> linarith

/-- Before it is rescaled a step goes at most one gain beyond the bound. -/
theorem Follows.stepped {generators : Generators} (htaps : generators.EndsTapped)
    {exact : State → ℤ} {low : ℤ} {t : Trellis} (hfollows : Follows exact low t)
    (hlow : Trellis.floor ≤ low) (hspread : ∀ s t, exact s - exact t ≤ spread) {symbol : List Soft}
    (hlen : symbol.length = generators.polys.length) :
    ∃ off, (t.step (ConvCode.new generators) symbol).1.metrics.at =
        (fun state ↦ select machine (gain (ConvCode.new generators)) exact symbol state - off) ∧
      (∃ state, low + off ≤ select machine (gain (ConvCode.new generators)) exact symbol state) ∧
      ∀ state, (t.step (ConvCode.new generators) symbol).1.metrics.at state ≤
        Trellis.ceiling + 2 ^ 18 * (t.normalizationSteps + 1) := by
  have hselects := step_selects htaps hlen (hfollows.exact hlow hspread hlen)
  obtain ⟨off, hmetrics, ⟨top, htop⟩, hceiling⟩ := hfollows.metrics
  unfold Selects at hselects
  rw [hmetrics] at hselects
  have hstepped : (t.step (ConvCode.new generators) symbol).1.metrics.at =
      fun state ↦ select machine (gain (ConvCode.new generators)) exact symbol state - off := by
    funext state
    rw [← select_sub_const]
    exact (hselects state).1
  refine ⟨off, hstepped, ?_, ?_⟩
  · -- some input out of the best state gains, so the best metric never falls
    obtain ⟨input, hinput⟩ : ∃ input, 0 ≤ gain (ConvCode.new generators) symbol top input := by
      rcases le_total 0 (gain (ConvCode.new generators) symbol top false) with h | h
      · exact ⟨false, h⟩
      · exact ⟨true, by rw [gain_true htaps]; exact neg_nonneg.mpr h⟩
    have hle := le_select machine (gain (ConvCode.new generators)) exact symbol top input
    refine ⟨machine.advance top input, ?_⟩
    linarith
  · intro state
    have henter := enter_choice machine (gain (ConvCode.new generators)) exact symbol state
    unfold enter at henter
    have hpred := hceiling (machine.pred state
      (choice machine (gain (ConvCode.new generators)) exact symbol state))
    have hgain := (abs_le.mp (gain_abs_le generators hlen (machine.pred state
      (choice machine (gain (ConvCode.new generators)) exact symbol state))
      (machine.input state))).2
    rw [hstepped]
    linarith

theorem Follows.step {generators : Generators} (htaps : generators.EndsTapped)
    {exact : State → ℤ} {low : ℤ} {t : Trellis} (hfollows : Follows exact low t)
    (hlow : Trellis.floor ≤ low) (hnonpos : low ≤ 0) (hspread : ∀ s t, exact s - exact t ≤ spread)
    {symbol : List Soft} (hlen : symbol.length = generators.polys.length) :
    Follows (select machine (gain (ConvCode.new generators)) exact symbol) low
      (t.step (ConvCode.new generators) symbol).1.normalize := by
  obtain ⟨off, hstepped, ⟨top, htop⟩, hbound⟩ := hfollows.stepped htaps hlow hspread hlen
  have hlowest : ∃ state, low ≤ (t.step (ConvCode.new generators) symbol).1.metrics.at state := by
    refine ⟨top, ?_⟩
    rw [hstepped]
    linarith
  obtain ⟨hsteps, shift, hshift, ⟨best, hbest⟩, hrange⟩ :=
    normalize_metrics (t.step (ConvCode.new generators) symbol).1 hnonpos hlowest hbound
  rw [hstepped] at hshift hbest hrange
  refine ⟨hsteps, off + shift, ?_, ⟨best, by linarith⟩, ?_⟩
  · rw [hshift]
    funext state
    ring
  · intro state
    linarith [hrange state]

theorem Tracks.follows {generators : Generators} {seen : List (List Soft)} {v : ViterbiK7}
    (htracks : Tracks generators seen v) : Follows (survivors generators seen) 0 v.trellis where
  steps := htracks.steps
  metrics := by
    obtain ⟨off, hmetrics, hbest, hceiling⟩ := htracks.metrics
    exact ⟨off, hmetrics, by simpa using hbest, hceiling⟩

theorem Tracks.step {generators : Generators} (htaps : generators.EndsTapped)
    {seen : List (List Soft)} {v : ViterbiK7} (htracks : Tracks generators seen v)
    (hseen : ∀ symbol ∈ seen, symbol.length = generators.polys.length) {symbol : List Soft}
    (hlen : symbol.length = generators.polys.length) :
    Tracks generators (seen ++ [symbol]) (v.stepSymbol symbol) := by
  have hfloor : Trellis.floor ≤ 0 := by decide
  have hspread := survivors_sub_le hseen
  have hselects := step_selects htaps hlen (htracks.follows.exact hfloor hspread hlen)
  have hnext : survivors generators (seen ++ [symbol]) =
      select machine (gain (ConvCode.new generators)) (survivors generators seen) symbol := by
    unfold survivors
    rw [values_append]
    rfl
  have hfollows := htracks.follows.step htaps hfloor le_rfl hspread hlen
  rw [← hnext] at hfollows
  have hresult : v.stepSymbol symbol = { v with
      trellis := (v.trellis.step (ConvCode.new generators) symbol).1.normalize
      decisions := v.decisions ++ [(v.trellis.step (ConvCode.new generators) symbol).2] } := by
    unfold ViterbiK7.stepSymbol
    rw [htracks.code]
  rw [hresult]
  refine ⟨htracks.code, hfollows.steps, ?_, ?_⟩
  · obtain ⟨off, hmetrics, -⟩ := htracks.metrics
    unfold Selects at hselects
    rw [hmetrics] at hselects
    rw [List.map_append, htracks.decisions, choices_append]
    congr 1
    simp only [choices, List.map_cons, List.map_nil, List.cons.injEq, and_true]
    funext state
    rw [(hselects state).2, choice_sub_const]
    rfl
  · obtain ⟨off, hmetrics, hbest, hceiling⟩ := hfollows.metrics
    exact ⟨off, hmetrics, by simpa using hbest, hceiling⟩

theorem mem_symbols_length {outputs : ℕ} {coded : List Soft} {symbol : List Soft}
    (hmem : symbol ∈ ViterbiK7.symbols outputs coded) : symbol.length = outputs := by
  obtain ⟨k, hk, rfl⟩ := List.mem_map.mp hmem
  have hlt : k + 1 ≤ coded.length / outputs := List.mem_range.mp hk
  have hmul : (k + 1) * outputs ≤ coded.length :=
    (Nat.mul_le_mul_right outputs hlt).trans (Nat.div_mul_le_self _ _)
  rw [List.length_take, List.length_drop]
  rw [Nat.add_mul, Nat.one_mul] at hmul
  omega

theorem Tracks.run {generators : Generators} (htaps : generators.EndsTapped)
    (symbols : List (List Soft))
    (hsymbols : ∀ symbol ∈ symbols, symbol.length = generators.polys.length)
    {seen : List (List Soft)} {v : ViterbiK7} (htracks : Tracks generators seen v)
    (hseen : ∀ symbol ∈ seen, symbol.length = generators.polys.length) :
    Tracks generators (seen ++ symbols) (symbols.foldl ViterbiK7.stepSymbol v) := by
  induction symbols generalizing seen v with
  | nil => simpa using htracks
  | cons symbol symbols ih =>
    have hhead := hsymbols symbol (List.mem_cons_self ..)
    have hstep := htracks.step htaps hseen hhead
    have hrest := ih (fun other hother ↦ hsymbols other (List.mem_cons_of_mem _ hother)) hstep
      (by
        intro other hother
        rcases List.mem_append.mp hother with h | h
        · exact hseen other h
        · rw [List.mem_singleton.mp h]
          exact hhead)
    rw [List.append_assoc, List.singleton_append] at hrest
    exact hrest

theorem Tracks.restart (generators : Generators) {v : ViterbiK7}
    (hcode : v.code = ConvCode.new generators) (hsteps : v.trellis.normalizationSteps < 256) :
    Tracks generators [] { v with decisions := [], trellis := v.trellis.restart } where
  code := hcode
  steps := hsteps
  decisions := rfl
  metrics := by
    have hstart (state : State) : survivors generators [] state = start state := rfl
    refine ⟨0, ?_, ⟨0, le_rfl⟩, ?_⟩
    · funext state
      rw [restart_metrics, hstart, sub_zero]
    · intro state
      rw [hstart, sub_zero]
      refine (start_nonpos state).trans ?_
      unfold Trellis.ceiling
      positivity

/-- Walking back through the words is the traceback of the choices they hold. -/
theorem trace_eq (decisions : List ℕ) (stop : State) :
    let path := Survivor.trace machine
      (decisions.map fun word (state : State) ↦ word.testBit state.val) stop
    Conv7.trace decisions stop = (path.2.reverse, path.1) := by
  have hpred (state : State) (odd : Bool) :
      Fin.ofNat 64 ((state.val &&& 0x1F) <<< 1 ||| odd.toNat) = machine.pred state odd := by
    revert state odd
    decide
  induction decisions with
  | nil => rfl
  | cons word decisions ih =>
    unfold Conv7.trace at ih ⊢
    rw [List.reverse_cons, List.foldl_append, ih, List.map_cons]
    simp only [Survivor.trace, List.foldl_cons, List.foldl_nil, List.reverse_cons, hpred]
    rfl

/-! ## Optimality -/

theorem symbols_cons {outputs : ℕ} (hpos : 0 < outputs) {coded : List Soft}
    (hlen : outputs ≤ coded.length) :
    ViterbiK7.symbols outputs coded =
      coded.take outputs :: ViterbiK7.symbols outputs (coded.drop outputs) := by
  unfold ViterbiK7.symbols
  have hcount : coded.length / outputs = (coded.drop outputs).length / outputs + 1 := by
    rw [List.length_drop, Nat.div_eq_sub_div hpos hlen]
  rw [hcount, List.range_succ_eq_map, List.map_cons, List.map_map]
  congr 1
  · simp
  · apply List.map_congr_left
    intro k _
    simp only [Function.comp_apply, List.drop_drop, Nat.succ_eq_add_one]
    congr 2
    ring

/-- The score of a path is the correlation of what the encoder sends along it. -/
theorem correlation_encodeFrom {code : ConvCode} (hpos : 0 < code.outputs) (bits : List Bool)
    (state : State) (coded : List Soft) (hlen : bits.length = coded.length / code.outputs) :
    correlation (code.encodeFrom state bits) coded =
      score machine (gain code) state bits (ViterbiK7.symbols code.outputs coded) := by
  induction bits generalizing state coded with
  | nil => simp [ConvCode.encodeFrom, correlation, score]
  | cons bit bits ih =>
    have hcoded : code.outputs ≤ coded.length := by
      by_contra h
      rw [Nat.div_eq_of_lt (not_le.mp h)] at hlen
      simp at hlen
    have hrest : bits.length = (coded.drop code.outputs).length / code.outputs := by
      rw [Nat.div_eq_sub_div hpos hcoded] at hlen
      rw [List.length_drop]
      exact Nat.succ.inj hlen
    have hhead : (code.outputBits code.branch[ConvCode.register state bit]).length =
        (coded.take code.outputs).length := by
      simp [ConvCode.outputBits, hcoded]
    rw [symbols_cons hpos hcoded, score, ConvCode.encodeFrom]
    calc
      correlation (_ ++ code.encodeFrom (ConvCode.advance state bit) bits) coded =
          correlation (_ ++ code.encodeFrom (ConvCode.advance state bit) bits)
            (coded.take code.outputs ++ coded.drop code.outputs) := by
        rw [List.take_append_drop]
      _ = _ := by
        rw [correlation_append _ _ _ _ hhead, ih (ConvCode.advance state bit) _ hrest]
        rfl

theorem finish_zero (count : ℕ) : finish machine 0 (List.replicate count false) = 0 := by
  induction count with
  | zero => rfl
  | succ count ih => simpa [finish, List.replicate_succ, machine, ConvCode.advance] using ih

/-- The survivor of state zero, or of a best state, started in state zero: the floor is further
down than any path can make up before the register has forgotten where it began. -/
theorem trace_from_zero {generators : Generators} {seen : List (List Soft)}
    (hseen : ∀ symbol ∈ seen, symbol.length = generators.polys.length) {stop : State}
    (hstop : stop = 0 ∨ ∀ state, survivors generators seen state ≤ survivors generators seen stop) :
    (Survivor.trace machine (choices machine (gain (ConvCode.new generators)) start seen) stop).1 =
      0 := by
  let path := Survivor.trace machine
    (choices machine (gain (ConvCode.new generators)) start seen) stop
  let total := fun from₀ inputs ↦ score machine (gain (ConvCode.new generators)) from₀ inputs seen
  obtain ⟨hlen, hfinish, hattains⟩ :=
    trace_attains machine (gain (ConvCode.new generators)) start seen stop
  have hgain : ∀ symbol ∈ seen, ∀ state input,
      |gain (ConvCode.new generators) symbol state input| ≤ 2 ^ 18 :=
    fun symbol hmem ↦ gain_abs_le generators (hseen symbol hmem)
  have hrival (inputs : List Bool) (hinputs : inputs.length = seen.length) :
      total 0 inputs ≤ survivors generators seen (finish machine 0 inputs) := by
    have hle := score_le_values machine (gain (ConvCode.new generators)) start 0 inputs seen hinputs
    have hstart : start 0 = 0 := rfl
    rw [hstart, zero_add] at hle
    exact hle
  have hmerge : total path.1 path.2 - total 0 path.2 ≤ 12 * 2 ^ 18 := by
    have hle := machine_forgetful.score_sub_le (by norm_num) hgain path.1 0 path.2 hlen
    exact hle.trans_eq (by norm_num)
  have hclose : total path.1 path.2 ≤ survivors generators seen stop + 12 * 2 ^ 18 := by
    rcases hstop with rfl | hbest
    · by_cases hlong : 6 ≤ seen.length
      · have hend : finish machine 0 path.2 = 0 := by
          rw [machine_forgetful.finish_eq 0 path.1 path.2 (hlen ▸ hlong)]
          exact hfinish
        have hle := hrival path.2 hlen
        rw [hend] at hle
        linarith
      · have hle := hrival (List.replicate seen.length false) (List.length_replicate ..)
        rw [finish_zero] at hle
        have hpath := (abs_le.mp (score_abs_le machine (by norm_num) hgain path.1
          path.2)).2
        have hzero := (abs_le.mp (score_abs_le machine (by norm_num) hgain 0
          (List.replicate seen.length false))).1
        have hshort : (seen.length : ℤ) ≤ 6 := by exact_mod_cast (not_le.mp hlong).le
        simp only [total] at hle ⊢
        linarith
    · have hle := (hrival path.2 hlen).trans (hbest _)
      linarith
  by_contra hne
  have hfloor : start path.1 = -2 ^ 24 := by
    have hstate : ¬path.1.val = 0 := fun hzero ↦ hne (Fin.ext hzero)
    unfold start
    rw [if_neg hstate]
    rfl
  have hsum : start path.1 + total path.1 path.2 = survivors generators seen stop := hattains
  linarith

/-- The decoders a program can hold: a new one, used any number of times. -/
inductive Reachable (generators : Generators) : ViterbiK7 → Prop
  | new : Reachable generators (ViterbiK7.new (ConvCode.new generators))
  | decode {v : ViterbiK7} (coded : List Soft) (out : List Bool) :
      Reachable generators v → Reachable generators (v.decode coded out).1
  | decodeTailed {v : ViterbiK7} (coded : List Soft) (out : List Bool) :
      Reachable generators v → Reachable generators (v.decodeTailed coded out).1

/-- What every run of a decoder leaves behind and returns. -/
theorem run_tracks {generators : Generators} (htaps : generators.EndsTapped) {v : ViterbiK7}
    (hcode : v.code = ConvCode.new generators) (hsteps : v.trellis.normalizationSteps < 256)
    (coded : List Soft) (out : List Bool) (stop : Option State) :
    Tracks generators (ViterbiK7.symbols generators.polys.length coded)
      (v.run coded out stop).1 := by
  have hrun := (Tracks.restart generators hcode hsteps).run htaps
    (ViterbiK7.symbols generators.polys.length coded) (fun _ ↦ mem_symbols_length)
    (by simp)
  rw [List.nil_append] at hrun
  unfold ViterbiK7.run
  simp only [hcode]
  rw [hcode] at hrun
  exact hrun

theorem Reachable.ready {generators : Generators} (htaps : generators.EndsTapped) {v : ViterbiK7}
    (hreach : Reachable generators v) :
    v.code = ConvCode.new generators ∧ v.trellis.normalizationSteps < 256 := by
  induction hreach with
  | new => exact ⟨rfl, Nat.zero_lt_succ 255⟩
  | decode coded out _ ih =>
    have htracks := run_tracks htaps ih.1 ih.2 coded out none
    exact ⟨htracks.code, htracks.steps⟩
  | decodeTailed coded out _ ih =>
    have htracks := run_tracks htaps ih.1 ih.2 coded out (some 0)
    exact ⟨htracks.code, htracks.steps⟩

/-- A run that stops in state zero or in a best state returns a path from state zero into it that
correlates as well as the state's survivor metric. -/
theorem run_returns {generators : Generators} (htaps : generators.EndsTapped) {v : ViterbiK7}
    (hreach : Reachable generators v) (coded : List Soft) (out : List Bool) (stop : Option State)
    (state : State) (hstate : state = stop.getD (v.run coded out stop).1.trellis.bestState)
    (hstop : state = 0 ∨ ∀ other,
      survivors generators (ViterbiK7.symbols generators.polys.length coded) other ≤
        survivors generators (ViterbiK7.symbols generators.polys.length coded) state) :
    ∃ bits, (v.run coded out stop).2.1 = out ++ bits ∧
      bits.length = coded.length / generators.polys.length ∧
      bits.foldl ConvCode.advance 0 = state ∧
      correlation ((ConvCode.new generators).encode bits) coded =
        survivors generators (ViterbiK7.symbols generators.polys.length coded) state := by
  obtain ⟨hcode, hsteps⟩ := hreach.ready htaps
  have htracks := run_tracks htaps hcode hsteps coded out stop
  let seen := ViterbiK7.symbols generators.polys.length coded
  let path := Survivor.trace machine
    (choices machine (gain (ConvCode.new generators)) start seen) state
  obtain ⟨hlen, hfinish, hattains⟩ :=
    trace_attains machine (gain (ConvCode.new generators)) start seen state
  have hzero : path.1 = 0 := trace_from_zero (fun _ ↦ mem_symbols_length) hstop
  have hlength : path.2.length = coded.length / generators.polys.length := by
    rw [hlen]
    simp [seen, ViterbiK7.symbols]
  refine ⟨path.2, ?_, hlength, ?_, ?_⟩
  · have htrace := trace_eq (v.run coded out stop).1.decisions state
    rw [htracks.decisions] at htrace
    have hout : (v.run coded out stop).2.1 =
        out ++ (Conv7.trace (v.run coded out stop).1.decisions state).1.reverse := by
      rw [hstate]
      rfl
    rw [hout, htrace, List.reverse_reverse]
  · rw [← hzero]
    exact hfinish
  · have hpos : 0 < (ConvCode.new generators).outputs := generators.count.1
    unfold ConvCode.encode
    rw [correlation_encodeFrom hpos path.2 0 coded hlength]
    have hstart : start path.1 = 0 := by rw [hzero]; rfl
    have hsum : start path.1 +
        score machine (gain (ConvCode.new generators)) path.1 path.2 seen =
          survivors generators seen state := hattains
    rw [hstart, zero_add, hzero] at hsum
    exact hsum

theorem correlation_encode_le (generators : Generators) (bits : List Bool) (coded : List Soft)
    (hlen : bits.length = coded.length / generators.polys.length) :
    correlation ((ConvCode.new generators).encode bits) coded ≤
      survivors generators (ViterbiK7.symbols generators.polys.length coded)
        (bits.foldl ConvCode.advance 0) := by
  have hpos : 0 < (ConvCode.new generators).outputs := generators.count.1
  have hseen : bits.length = (ViterbiK7.symbols generators.polys.length coded).length := by
    rw [hlen]
    simp [ViterbiK7.symbols]
  have hle := score_le_values machine (gain (ConvCode.new generators)) start 0 bits _ hseen
  have hstart : start 0 = 0 := rfl
  rw [hstart, zero_add] at hle
  unfold ConvCode.encode
  rw [correlation_encodeFrom hpos bits 0 coded hlen]
  exact hle

theorem bestState_spec {generators : Generators} {seen : List (List Soft)} {v : ViterbiK7}
    (htracks : Tracks generators seen v) (state : State) :
    survivors generators seen state ≤ survivors generators seen v.trellis.bestState := by
  obtain ⟨off, hmetrics, -, -⟩ := htracks.metrics
  obtain ⟨best, hbest⟩ := Iter.maxByKey_isSome (fun state ↦ v.trellis.metrics.at state)
    (by decide : List.finRange 64 ≠ [])
  have hle := Iter.le_maxByKey _ hbest state (List.mem_finRange state)
  have hstate : v.trellis.bestState = best := by
    unfold Trellis.bestState
    exact congrArg (fun found : Option State ↦ found.getD 0) hbest
  rw [hmetrics] at hle
  rw [hstate]
  linarith

/-- Of the inputs that return the register to zero, one that correlates best comes out. -/
theorem decodeTailed_best {generators : Generators} (htaps : generators.EndsTapped) {v : ViterbiK7}
    (hreach : Reachable generators v) (coded : List Soft) (out : List Bool) :
    ∃ bits, (v.decodeTailed coded out).2.1 = out ++ bits ∧
      bits.length = coded.length / generators.polys.length ∧
      bits.foldl ConvCode.advance 0 = 0 ∧
      ∀ other : List Bool, other.length = bits.length → other.foldl ConvCode.advance 0 = 0 →
        correlation ((ConvCode.new generators).encode other) coded ≤
          correlation ((ConvCode.new generators).encode bits) coded := by
  obtain ⟨bits, hout, hlen, hend, hcorrelation⟩ :=
    run_returns htaps hreach coded out (some 0) 0 (Option.getD_some ..).symm
      (Or.inl rfl)
  refine ⟨bits, hout, hlen, hend, ?_⟩
  intro other hother hzero
  have hle := correlation_encode_le generators other coded (hother.trans hlen)
  rw [hzero] at hle
  rw [hcorrelation]
  exact hle

/-- The decoder is a maximum-likelihood decoder, however it was used before and however often its
metrics were rescaled: `decode` over all inputs, `decodeTailed` over those that return the
register to zero. -/
theorem decode_most_likely (generators : Generators) (htaps : generators.EndsTapped)
    (v : ViterbiK7) (hreach : Reachable generators v) (coded : List Soft) (out : List Bool) :
    (∃ bits, (v.decode coded out).2.1 = out ++ bits ∧
      bits.length = coded.length / generators.polys.length ∧
      ∀ other : List Bool, other.length = bits.length →
        correlation ((ConvCode.new generators).encode other) coded ≤
          correlation ((ConvCode.new generators).encode bits) coded) ∧
    (∃ bits, (v.decodeTailed coded out).2.1 = out ++ bits ∧
      bits.length = coded.length / generators.polys.length ∧
      bits.foldl ConvCode.advance 0 = 0 ∧
      ∀ other : List Bool, other.length = bits.length → other.foldl ConvCode.advance 0 = 0 →
        correlation ((ConvCode.new generators).encode other) coded ≤
          correlation ((ConvCode.new generators).encode bits) coded) := by
  obtain ⟨hcode, hsteps⟩ := hreach.ready htaps
  constructor
  · have hbest := bestState_spec (run_tracks htaps hcode hsteps coded out none)
    obtain ⟨bits, hout, hlen, -, hcorrelation⟩ :=
      run_returns htaps hreach coded out none
        (v.run coded out none).1.trellis.bestState (Option.getD_none ..).symm
        (Or.inr hbest)
    refine ⟨bits, hout, hlen, ?_⟩
    intro other hother
    rw [hcorrelation]
    exact (correlation_encode_le generators other coded (hother.trans hlen)).trans (hbest _)
  · exact decodeTailed_best htaps hreach coded out

/-- The generators of DVB-S. -/
def dvbS : Generators := ⟨[0o171, 0o133], by decide⟩

theorem decode_most_likely_dvbS :
    dvbS.EndsTapped ∧
      ∃ bits, ((ViterbiK7.new (ConvCode.new dvbS)).decode [120, -80, 32767, -32768, 5] []).2.1 =
          [] ++ bits ∧
        bits.length = 5 / 2 ∧
        ∀ other : List Bool, other.length = bits.length →
          correlation ((ConvCode.new dvbS).encode other) [120, -80, 32767, -32768, 5] ≤
            correlation ((ConvCode.new dvbS).encode bits) [120, -80, 32767, -32768, 5] :=
  have htaps : dvbS.EndsTapped := by decide
  ⟨htaps, (decode_most_likely dvbS htaps _ .new [120, -80, 32767, -32768, 5] []).1⟩

end Sdrmm.Conv7
