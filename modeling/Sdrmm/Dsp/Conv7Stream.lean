import Sdrmm.Dsp.Conv7Viterbi
import Sdrmm.Lib.Chunked

/-!
# The streaming Viterbi decoder

`StreamViterbiK7` of `dsp/src/fec/conv7.rs`.  A symbol that a push leaves unfinished waits in `carry`, so
the decoder takes whole symbols off what has come, however it came; decisions are released in
batches, and every decision is released once.
-/

namespace Sdrmm.Conv7

def maxOutputs : ℕ := 8

/-- The decoder without its scratch buffer. -/
structure StreamViterbiK7 where
  code : ConvCode
  trellis : Trellis
  decisions : List ℕ
  depth : ℕ
  batch : ℕ
  carry : List Soft
  carried : ℕ

namespace StreamViterbiK7

def new (code : ConvCode) (depth : ℕ) : StreamViterbiK7 where
  code := code
  trellis := Trellis.new.setMetrics (Vector.replicate 64 0)
  decisions := []
  depth := max depth 8
  batch := 8 * max depth 8
  carry := List.replicate maxOutputs 0
  carried := 0

/-- The decisions older than `depth` are released along the path that survives; a batch is longer than
that. -/
def release (v : StreamViterbiK7) : StreamViterbiK7 × List Bool :=
  let settled := v.decisions.length - v.depth
  let state := (trace (v.decisions.drop settled) v.trellis.bestState).2
  let pending := (trace (v.decisions.take settled) state).1
  ({ v with decisions := v.decisions.drop settled }, pending.reverse)

def step (v : StreamViterbiK7) (symbol : List Soft) : StreamViterbiK7 × List Bool :=
  let (trellis, word) := v.trellis.step v.code symbol
  let v := { v with trellis := trellis.normalize, decisions := v.decisions ++ [word] }
  if v.batch ≤ v.decisions.length then v.release else (v, [])

def stepAll (v : StreamViterbiK7) : List (List Soft) → StreamViterbiK7 × List Bool
  | [] => (v, [])
  | symbol :: symbols =>
    let (v, out) := v.step symbol
    let (v, later) := v.stepAll symbols
    (v, out ++ later)

/-- `carry[start..start + values.len()].copy_from_slice(values)`. -/
def copyInto (carry : List Soft) (start : ℕ) (values : List Soft) : List Soft :=
  carry.take start ++ values ++ carry.drop (start + values.length)

/-- The whole symbols of a source, and what is left of it into the carry. -/
def pushWhole (v : StreamViterbiK7) (source : List Soft) : StreamViterbiK7 × List Bool :=
  let usable := source.length / v.code.outputs * v.code.outputs
  let (v, out) := v.stepAll (ViterbiK7.symbols v.code.outputs source)
  ({ v with
      carried := source.length - usable
      carry := copyInto v.carry 0 (source.drop usable) }, out)

def push (v : StreamViterbiK7) (coded : List Soft) : StreamViterbiK7 × List Bool :=
  let outputs := v.code.outputs
  if 0 < v.carried then
    let take := min (outputs - v.carried) coded.length
    let v := { v with
      carry := copyInto v.carry v.carried (coded.take take)
      carried := v.carried + take }
    if v.carried < outputs then (v, [])
    else
      let (v, out) := { v with carried := 0 }.step (v.carry.take outputs)
      let (v, later) := v.pushWhole (coded.drop take)
      (v, out ++ later)
  else v.pushWhole coded

def flush (v : StreamViterbiK7) : StreamViterbiK7 × List Bool :=
  if v.decisions = [] then (v, [])
  else ({ v with decisions := [] }, (trace v.decisions v.trellis.bestState).1.reverse)

def pushChunks (v : StreamViterbiK7) : List (List Soft) → StreamViterbiK7 × List Bool
  | [] => (v, [])
  | chunk :: chunks =>
    let (v, out) := v.push chunk
    let (v, later) := v.pushChunks chunks
    (v, out ++ later)

/-- The decoder but for the symbol it waits for. -/
def settled (v : StreamViterbiK7) : StreamViterbiK7 := { v with carry := [], carried := 0 }

/-- The symbol it waits for. -/
def left (v : StreamViterbiK7) : List Soft := v.carry.take v.carried

/-! ## Steps -/

theorem step_settled (v : StreamViterbiK7) (symbol : List Soft) :
    (v.step symbol).1.settled = (v.settled.step symbol).1 ∧
      (v.step symbol).2 = (v.settled.step symbol).2 := by
  unfold step settled
  generalize v.trellis.step v.code symbol = stepped
  dsimp only
  split
  · exact ⟨rfl, rfl⟩
  · exact ⟨rfl, rfl⟩

theorem step_carry (v : StreamViterbiK7) (symbol : List Soft) :
    (v.step symbol).1.carry = v.carry ∧ (v.step symbol).1.code = v.code := by
  unfold step
  generalize v.trellis.step v.code symbol = stepped
  dsimp only
  split
  · exact ⟨rfl, rfl⟩
  · exact ⟨rfl, rfl⟩

theorem stepAll_settled (v : StreamViterbiK7) (symbols : List (List Soft)) :
    (v.stepAll symbols).1.settled = (v.settled.stepAll symbols).1 ∧
      (v.stepAll symbols).2 = (v.settled.stepAll symbols).2 := by
  induction symbols generalizing v with
  | nil => exact ⟨rfl, rfl⟩
  | cons symbol symbols ih =>
    obtain ⟨hstate, hout⟩ := step_settled v symbol
    obtain ⟨hlast, hlater⟩ := ih (v.step symbol).1
    rw [hstate] at hlast hlater
    exact ⟨hlast, congrArg₂ (· ++ ·) hout hlater⟩

theorem stepAll_carry (v : StreamViterbiK7) (symbols : List (List Soft)) :
    (v.stepAll symbols).1.carry = v.carry ∧ (v.stepAll symbols).1.code = v.code := by
  induction symbols generalizing v with
  | nil => exact ⟨rfl, rfl⟩
  | cons symbol symbols ih =>
    obtain ⟨hcarry, hcode⟩ := step_carry v symbol
    obtain ⟨hlaterCarry, hlaterCode⟩ := ih (v.step symbol).1
    exact ⟨hlaterCarry.trans hcarry, hlaterCode.trans hcode⟩

/-! ## Cuts -/

/-- One symbol off the front of the stream. -/
def parser (outputs : ℕ) (hpos : 0 < outputs) : ChunkParser StreamViterbiK7 Soft Bool where
  step v input :=
    if outputs ≤ input.length then
      some (outputs, (v.step (input.take outputs)).1, (v.step (input.take outputs)).2)
    else none
  pos := by
    intro v input taken next out hstep
    split at hstep
    · cases hstep
      exact hpos
    · cases hstep
  le := by
    intro v input taken next out hstep
    split at hstep
    · next hlen =>
      cases hstep
      exact hlen
    · cases hstep
  append := by
    intro v input piece hstep more
    split at hstep
    · next hlen =>
      have hlonger : outputs ≤ (input ++ more).length := by
        rw [List.length_append]
        exact hlen.trans (Nat.le_add_right _ _)
      rw [if_pos hlonger, List.take_append_of_le_length hlen]
      exact hstep
    · cases hstep

section Parser

variable {outputs : ℕ} (hpos : 0 < outputs)

theorem parser_short (v : StreamViterbiK7) {input : List Soft} (hshort : input.length < outputs) :
    (parser outputs hpos).drain v input = (v, [], input) := by
  apply ChunkParser.drain_none
  exact if_neg (not_le.mpr hshort)

theorem parser_symbol (v : StreamViterbiK7) {input : List Soft} (hlen : outputs ≤ input.length) :
    (parser outputs hpos).drain v input =
      (((parser outputs hpos).drain (v.step (input.take outputs)).1 (input.drop outputs)).1,
        (v.step (input.take outputs)).2 ++
          ((parser outputs hpos).drain (v.step (input.take outputs)).1 (input.drop outputs)).2.1,
        ((parser outputs hpos).drain (v.step (input.take outputs)).1
          (input.drop outputs)).2.2) := by
  apply ChunkParser.drain_some
  exact if_pos hlen

/-- What whole symbols there are, one step each. -/
theorem parser_drain (v : StreamViterbiK7) (input : List Soft) :
    (parser outputs hpos).drain v input =
      ((v.stepAll (ViterbiK7.symbols outputs input)).1,
        (v.stepAll (ViterbiK7.symbols outputs input)).2,
        input.drop (input.length / outputs * outputs)) := by
  induction hlength : input.length using Nat.strongRecOn generalizing v input with
  | ind length ih =>
    subst hlength
    by_cases hlen : outputs ≤ input.length
    · have hshorter : (input.drop outputs).length < input.length := by
        rw [List.length_drop]
        omega
      have hcount : input.length / outputs = (input.drop outputs).length / outputs + 1 := by
        rw [List.length_drop, Nat.div_eq_sub_div hpos hlen]
      have hdrop : input.drop (input.length / outputs * outputs) =
          (input.drop outputs).drop ((input.drop outputs).length / outputs * outputs) := by
        rw [hcount, List.drop_drop, Nat.add_mul, Nat.one_mul, Nat.add_comm]
      rw [parser_symbol hpos v hlen, ih _ hshorter _ _ rfl, symbols_cons hpos hlen, hdrop]
      rfl
    · have hnone : input.length / outputs = 0 := Nat.div_eq_of_lt (not_le.mp hlen)
      rw [parser_short hpos v (not_le.mp hlen), hnone, Nat.zero_mul, List.drop_zero,
        ViterbiK7.symbols, hnone]
      rfl

end Parser

/-! ## Pushes -/

theorem length_copyInto {carry values : List Soft} {start : ℕ}
    (hfits : start + values.length ≤ carry.length) :
    (copyInto carry start values).length = carry.length := by
  unfold copyInto
  rw [List.length_append, List.length_append, List.length_take, List.length_drop]
  omega

theorem take_copyInto {carry values : List Soft} {start : ℕ}
    (hfits : start + values.length ≤ carry.length) :
    (copyInto carry start values).take (start + values.length) = carry.take start ++ values := by
  have hfront : (carry.take start ++ values).length = start + values.length := by
    rw [List.length_append, List.length_take]
    omega
  unfold copyInto
  rw [← hfront]
  exact List.take_left

/-- A decoder between two pushes: less than a symbol waits. -/
structure Ready (generators : Generators) (v : StreamViterbiK7) : Prop where
  code : v.code = ConvCode.new generators
  room : v.carry.length = maxOutputs
  carried : v.carried < generators.polys.length

/-- What a decoder makes of an input: all whole symbols have been stepped through, the rest waits. -/
structure Took (generators : Generators) (v : StreamViterbiK7) (input : List Soft)
    (result : StreamViterbiK7 × List Bool) : Prop where
  ready : Ready generators result.1
  drained : (parser generators.polys.length generators.count.1).drain v.settled input =
    (result.1.settled, result.2, result.1.left)

variable {generators : Generators}

theorem new_ready (depth : ℕ) : Ready generators (new (ConvCode.new generators) depth) where
  code := rfl
  room := List.length_replicate
  carried := generators.count.1

theorem Ready.length_left {v : StreamViterbiK7} (hready : Ready generators v) :
    v.left.length = v.carried := by
  have hroom := hready.room
  have hcarried := hready.carried
  have hcount := generators.count.2
  unfold maxOutputs at hroom
  rw [left, List.length_take]
  omega

theorem pushWhole_took {v : StreamViterbiK7} (hcode : v.code = ConvCode.new generators)
    (hroom : v.carry.length = maxOutputs) (source : List Soft) :
    Took generators v source (v.pushWhole source) := by
  have houtputs : v.code.outputs = generators.polys.length := by
    rw [hcode]
    rfl
  have hcount : generators.polys.length ≤ maxOutputs := generators.count.2
  let usable := source.length / generators.polys.length * generators.polys.length
  let symbols := ViterbiK7.symbols generators.polys.length source
  have hrest : source.length - usable < generators.polys.length := by
    have hmod := Nat.mod_lt source.length generators.count.1
    have hdiv := Nat.div_add_mod' source.length generators.polys.length
    change source.length - source.length / _ * _ < _
    omega
  have hlength : (source.drop usable).length = source.length - usable := List.length_drop
  have hfits : 0 + (source.drop usable).length ≤ v.carry.length := by
    rw [hlength, hroom]
    omega
  have hpush : v.pushWhole source = ({ (v.stepAll symbols).1 with
      carried := source.length - usable
      carry := copyInto v.carry 0 (source.drop usable) }, (v.stepAll symbols).2) := by
    unfold pushWhole
    rw [houtputs, ← (stepAll_carry v symbols).1]
  obtain ⟨hsettled, hout⟩ := stepAll_settled v symbols
  rw [hpush]
  constructor
  · constructor
    · exact (stepAll_carry v symbols).2.trans hcode
    · exact (length_copyInto hfits).trans hroom
    · exact hrest
  · have hleft := take_copyInto hfits
    rw [Nat.zero_add, List.take_zero, List.nil_append, hlength] at hleft
    rw [parser_drain]
    apply Prod.ext
    · exact hsettled.symm
    · apply Prod.ext
      · exact hout.symm
      · exact hleft.symm

theorem push_waits {v : StreamViterbiK7} {coded : List Soft} (hwaits : 0 < v.carried)
    (hshort : v.carried + coded.length < v.code.outputs) :
    v.push coded = ({ v with
      carry := copyInto v.carry v.carried coded
      carried := v.carried + coded.length }, []) := by
  have htaken : min (v.code.outputs - v.carried) coded.length = coded.length := by omega
  unfold push
  simp only
  rw [if_pos hwaits, htaken, List.take_length, if_pos hshort]

/-- The carry with the symbol it waited for, of which it is then free. -/
def filled (v : StreamViterbiK7) (values : List Soft) : StreamViterbiK7 :=
  { v with carry := copyInto v.carry v.carried values, carried := 0 }

theorem push_completes {v : StreamViterbiK7} {coded : List Soft} {taken : ℕ}
    (hwaits : 0 < v.carried) (htaken : v.carried + taken = v.code.outputs)
    (henough : taken ≤ coded.length) :
    v.push coded =
      let first := (v.filled (coded.take taken)).step
        ((copyInto v.carry v.carried (coded.take taken)).take v.code.outputs)
      let rest := first.1.pushWhole (coded.drop taken)
      (rest.1, first.2 ++ rest.2) := by
  have hmin : min (v.code.outputs - v.carried) coded.length = taken := by omega
  unfold push
  simp only
  rw [if_pos hwaits, hmin, if_neg (by omega)]
  rfl

/-- A symbol off the front, then the rest. -/
theorem Took.behind {v first : StreamViterbiK7} {input : List Soft} {out : List Bool}
    {result : StreamViterbiK7 × List Bool} (hlong : generators.polys.length ≤ input.length)
    (hfirst : (first.settled, out) = v.settled.step (input.take generators.polys.length))
    (hrest : Took generators first (input.drop generators.polys.length) result) :
    Took generators v input (result.1, out ++ result.2) := by
  constructor
  · exact hrest.ready
  · rw [parser_symbol _ _ hlong, ← hfirst, hrest.drained]

theorem push_took {v : StreamViterbiK7} (hready : Ready generators v) (coded : List Soft) :
    Took generators v (v.left ++ coded) (v.push coded) := by
  have houtputs : v.code.outputs = generators.polys.length := by
    rw [hready.code]
    rfl
  have hcount : generators.polys.length ≤ maxOutputs := generators.count.2
  have hroom := hready.room
  have hcarried := hready.carried
  have hleft := hready.length_left
  by_cases hwaits : 0 < v.carried
  · by_cases hshort : v.carried + coded.length < generators.polys.length
    · have hfits : v.carried + coded.length ≤ v.carry.length := by
        rw [hroom]
        omega
      have hnone : (v.left ++ coded).length < generators.polys.length := by
        rw [List.length_append, hleft]
        exact hshort
      rw [push_waits hwaits (houtputs ▸ hshort)]
      constructor
      · constructor
        · exact hready.code
        · exact (length_copyInto hfits).trans hroom
        · exact hshort
      · rw [parser_short _ _ hnone]
        exact congrArg (fun rest ↦ (v.settled, [], rest)) (take_copyInto hfits).symm
    · obtain ⟨taken, hwhole⟩ : ∃ taken, v.carried + taken = generators.polys.length :=
        Nat.exists_eq_add_of_le hcarried.le |>.imp fun _ h ↦ h.symm
      have htaken : (coded.take taken).length = taken := by
        rw [List.length_take]
        omega
      have hfits : v.carried + (coded.take taken).length ≤ v.carry.length := by
        rw [htaken, hroom]
        omega
      have hfilled := take_copyInto hfits
      rw [htaken, hwhole] at hfilled
      have hfirst : (v.left ++ coded).take generators.polys.length =
          v.left ++ coded.take taken := by
        rw [← hwhole, ← hleft, List.take_length_add_append]
      have hlater : (v.left ++ coded).drop generators.polys.length = coded.drop taken := by
        rw [← hwhole, ← hleft, List.drop_length_add_append]
      have hlong : generators.polys.length ≤ (v.left ++ coded).length := by
        rw [List.length_append, hleft]
        omega
      have hpush := push_completes hwaits (hwhole.trans houtputs.symm)
        (by omega : taken ≤ coded.length)
      have hleftCarry : v.carry.take v.carried = v.left := rfl
      rw [houtputs, hfilled, hleftCarry] at hpush
      obtain ⟨hstate, hout⟩ := step_settled (v.filled (coded.take taken))
        (v.left ++ coded.take taken)
      obtain ⟨hcarry, hcode⟩ := step_carry (v.filled (coded.take taken))
        (v.left ++ coded.take taken)
      rw [hpush]
      apply Took.behind hlong
      · rw [hfirst]
        exact Prod.ext hstate hout
      · rw [hlater]
        apply pushWhole_took (hcode.trans hready.code)
        rw [hcarry]
        exact (length_copyInto hfits).trans hroom
  · have hnone : v.carried = 0 := Nat.eq_zero_of_not_pos hwaits
    have hnil : v.left = [] := by
      apply List.eq_nil_of_length_eq_zero
      exact hleft.trans hnone
    have hpush : v.push coded = v.pushWhole coded := by
      unfold push
      simp only
      rw [if_neg hwaits]
    rw [hnil, List.nil_append, hpush]
    exact pushWhole_took hready.code hroom coded

theorem pushChunks_took {v : StreamViterbiK7} (hready : Ready generators v)
    (chunks : List (List Soft)) :
    Took generators v (v.left ++ chunks.flatten) (v.pushChunks chunks) := by
  induction chunks generalizing v with
  | nil =>
    have hshort : (v.left ++ []).length < generators.polys.length := by
      rw [List.append_nil, hready.length_left]
      exact hready.carried
    constructor
    · exact hready
    · rw [List.flatten_nil, parser_short _ _ hshort, List.append_nil]
      rfl
  | cons chunk chunks ih =>
    have hfirst := push_took hready chunk
    have hrest := ih hfirst.ready
    constructor
    · exact hrest.ready
    · rw [List.flatten_cons, ← List.append_assoc, ChunkParser.drain_append, hfirst.drained]
      dsimp only
      rw [hrest.drained]
      rfl

/-! ## Decisions -/

theorem length_trace (decisions : List ℕ) (start : State) :
    (trace decisions start).1.length = decisions.length := by
  unfold trace
  suffices hbits : ∀ (words : List ℕ) (path : List Bool × State),
      (words.foldl (fun path word ↦
        (path.1 ++ [path.2.val >>> 5 == 1],
          Fin.ofNat 64 ((path.2.val &&& 0x1F) <<< 1 ||| (word.testBit path.2.val).toNat)))
        path).1.length = path.1.length + words.length by
    refine (hbits decisions.reverse ([], start)).trans ?_
    rw [List.length_reverse]
    exact Nat.zero_add _
  intro words
  induction words with
  | nil =>
    intro path
    rfl
  | cons word words ih =>
    intro path
    rw [List.foldl_cons, ih, List.length_append, List.length_singleton, List.length_cons]
    omega

theorem length_release (v : StreamViterbiK7) :
    v.release.2.length + v.release.1.decisions.length = v.decisions.length := by
  unfold release
  dsimp only
  rw [List.length_reverse, length_trace, ← List.length_append, List.take_append_drop]

theorem length_step (v : StreamViterbiK7) (symbol : List Soft) :
    (v.step symbol).2.length + (v.step symbol).1.decisions.length = v.decisions.length + 1 := by
  unfold step
  generalize v.trellis.step v.code symbol = stepped
  dsimp only
  split
  · rw [length_release]
    exact List.length_append
  · rw [List.length_nil, Nat.zero_add]
    exact List.length_append

/-- Every step makes a decision, and every decision is released once or still held. -/
theorem length_stepAll (v : StreamViterbiK7) (symbols : List (List Soft)) :
    (v.stepAll symbols).2.length + (v.stepAll symbols).1.decisions.length =
      v.decisions.length + symbols.length := by
  induction symbols generalizing v with
  | nil => exact Nat.zero_add _
  | cons symbol symbols ih =>
    have hout : (v.stepAll (symbol :: symbols)).2 =
        (v.step symbol).2 ++ ((v.step symbol).1.stepAll symbols).2 := rfl
    have hlast : (v.stepAll (symbol :: symbols)).1 = ((v.step symbol).1.stepAll symbols).1 := rfl
    have hfirst := length_step v symbol
    have hrest := ih (v.step symbol).1
    rw [hout, hlast, List.length_append, List.length_cons]
    omega

theorem length_flush (v : StreamViterbiK7) : v.flush.2.length = v.decisions.length := by
  unfold flush
  split
  · next hnone =>
    rw [hnone]
    rfl
  · rw [List.length_reverse, length_trace]

theorem flush_settled (v : StreamViterbiK7) : v.settled.flush.2 = v.flush.2 := by
  by_cases hnone : v.decisions = []
  · have hsettled : v.settled.decisions = [] := hnone
    rw [flush, if_pos hsettled, flush, if_pos hnone]
  · have hsettled : v.settled.decisions ≠ [] := hnone
    rw [flush, if_neg hsettled, flush, if_neg hnone]
    rfl

/-- A decoder's whole output is that of one push of the whole stream, however the stream was cut, and
has a bit for every whole symbol. -/
theorem stream_cut (generators : Generators) (depth : ℕ) (chunks : List (List Soft)) :
    let fresh := new (ConvCode.new generators) depth
    let pushed := fresh.pushChunks chunks
    let whole := fresh.push chunks.flatten
    pushed.2 ++ pushed.1.flush.2 = whole.2 ++ whole.1.flush.2 ∧
      (pushed.2 ++ pushed.1.flush.2).length = chunks.flatten.length / generators.polys.length := by
  intro fresh pushed whole
  have hready : Ready generators fresh := new_ready depth
  have hleft : fresh.left = [] := rfl
  have hpushed := (pushChunks_took hready chunks).drained
  have hwhole := (push_took hready chunks.flatten).drained
  rw [hleft, List.nil_append] at hpushed hwhole
  have hsame := hpushed.symm.trans hwhole
  constructor
  · have hstate : pushed.1.settled = whole.1.settled := congrArg Prod.fst hsame
    have hout : pushed.2 = whole.2 := congrArg (fun result ↦ result.2.1) hsame
    rw [hout, ← flush_settled, hstate, flush_settled]
  · rw [parser_drain] at hpushed
    have hstate := congrArg (fun result ↦ result.1.decisions.length) hpushed
    have hout := congrArg (fun result ↦ result.2.1.length) hpushed
    have hcount := length_stepAll fresh.settled
      (ViterbiK7.symbols generators.polys.length chunks.flatten)
    have hsymbols : (ViterbiK7.symbols generators.polys.length chunks.flatten).length =
        chunks.flatten.length / generators.polys.length := by
      rw [ViterbiK7.symbols, List.length_map, List.length_range]
    have hnone : fresh.settled.decisions.length = 0 := rfl
    dsimp only at hstate hout
    rw [hsymbols, hnone, Nat.zero_add, hstate, hout] at hcount
    rw [List.length_append, length_flush]
    exact hcount

end StreamViterbiK7

end Sdrmm.Conv7
