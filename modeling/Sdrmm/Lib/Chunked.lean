import Mathlib.Data.List.Basic

/-!
# Parsers of a stream that comes in chunks

A parser looks at the front of what has come and, once it has seen enough, takes a piece of it.  Since
what follows a piece does not change how it is taken, it does not matter how the stream is cut.
-/

namespace Sdrmm

/-- What a parser takes from the front of its input: how many items, the state behind them and what comes
out. -/
structure ChunkParser (σ ι ω : Type*) where
  step : σ → List ι → Option (ℕ × σ × List ω)
  pos : ∀ {state input taken next out}, step state input = some (taken, next, out) → 0 < taken
  le : ∀ {state input taken next out}, step state input = some (taken, next, out) →
    taken ≤ input.length
  append : ∀ {state input piece}, step state input = some piece →
    ∀ more, step state (input ++ more) = some piece

namespace ChunkParser

variable {σ ι ω : Type*} (parser : ChunkParser σ ι ω)

/-- Take pieces as long as there are any: the state behind them, what came out and what is left. -/
def drain (state : σ) (input : List ι) : σ × List ω × List ι :=
  match hstep : parser.step state input with
  | none => (state, [], input)
  | some (taken, next, out) =>
      let rest := drain next (input.drop taken)
      (rest.1, out ++ rest.2.1, rest.2.2)
termination_by input.length
decreasing_by
  have := parser.pos hstep
  have := parser.le hstep
  rw [List.length_drop]
  omega

variable {parser} {state next : σ} {input : List ι} {taken : ℕ} {out : List ω}

theorem drain_none (hstep : parser.step state input = none) :
    parser.drain state input = (state, [], input) := by
  rw [drain]
  split
  · rfl
  · next hsome => cases hstep.symm.trans hsome

theorem drain_some (hstep : parser.step state input = some (taken, next, out)) :
    parser.drain state input = ((parser.drain next (input.drop taken)).1,
      out ++ (parser.drain next (input.drop taken)).2.1,
      (parser.drain next (input.drop taken)).2.2) := by
  rw [drain]
  split
  · next hnone => cases hnone.symm.trans hstep
  · next hsome =>
    obtain ⟨rfl, rfl, rfl⟩ : _ ∧ _ ∧ _ := by simpa using hsome.symm.trans hstep
    rfl

variable (parser)

/-- Nothing can be taken of nothing. -/
theorem drain_nil (state : σ) : parser.drain state [] = (state, [], []) := by
  cases hstep : parser.step state [] with
  | none => exact drain_none hstep
  | some piece =>
    obtain ⟨taken, next, out⟩ := piece
    have hpos := parser.pos hstep
    have hle := parser.le hstep
    rw [List.length_nil] at hle
    omega

/-- What follows is taken with what was left. -/
theorem drain_append (state : σ) (input more : List ι) :
    parser.drain state (input ++ more) =
      ((parser.drain (parser.drain state input).1 ((parser.drain state input).2.2 ++ more)).1,
        (parser.drain state input).2.1 ++
          (parser.drain (parser.drain state input).1 ((parser.drain state input).2.2 ++ more)).2.1,
        (parser.drain (parser.drain state input).1 ((parser.drain state input).2.2 ++ more)).2.2) := by
  induction hlength : input.length using Nat.strongRecOn generalizing state input with
  | ind length ih =>
    cases hstep : parser.step state input with
    | none => rw [drain_none hstep, List.nil_append]
    | some piece =>
      obtain ⟨taken, next, out⟩ := piece
      have hpos := parser.pos hstep
      have hle := parser.le hstep
      have hrest := ih (input.drop taken).length (by rw [List.length_drop]; omega) next
        (input.drop taken) rfl
      rw [drain_some hstep, drain_some (parser.append hstep more), List.drop_append_of_le_length hle,
        hrest, List.append_assoc]

/-- What every step keeps is kept. -/
theorem drain_keeps {P : σ → Prop}
    (hkeeps : ∀ {state input taken next out}, P state →
      parser.step state input = some (taken, next, out) → P next) {state : σ} (hstate : P state)
    (input : List ι) : P (parser.drain state input).1 := by
  induction hlength : input.length using Nat.strongRecOn generalizing state input with
  | ind length ih =>
    cases hstep : parser.step state input with
    | none =>
      rw [drain_none hstep]
      exact hstate
    | some piece =>
      obtain ⟨taken, next, out⟩ := piece
      have hpos := parser.pos hstep
      have hle := parser.le hstep
      rw [drain_some hstep]
      exact ih (input.drop taken).length (by rw [List.length_drop]; omega) (hkeeps hstate hstep)
        (input.drop taken) rfl

/-- The chunks of a stream, one after another, behind what was left before. -/
def feed (state : σ) (left : List ι) : List (List ι) → σ × List ω × List ι
  | [] => (state, [], left)
  | chunk :: chunks =>
      let first := parser.drain state (left ++ chunk)
      let rest := feed first.1 first.2.2 chunks
      (rest.1, first.2.1 ++ rest.2.1, rest.2.2)

/-- It does not matter how the stream is cut. -/
theorem feed_eq (state : σ) (left : List ι) (chunks : List (List ι))
    (hleft : parser.drain state left = (state, [], left)) :
    parser.feed state left chunks = parser.drain state (left ++ chunks.flatten) := by
  induction chunks generalizing state left with
  | nil => rw [List.flatten_nil, List.append_nil, hleft, feed]
  | cons chunk chunks ih =>
    have hdrained : parser.drain (parser.drain state (left ++ chunk)).1
        (parser.drain state (left ++ chunk)).2.2 =
        ((parser.drain state (left ++ chunk)).1, [], (parser.drain state (left ++ chunk)).2.2) := by
      have hnothing := parser.drain_append state (left ++ chunk) []
      rw [List.append_nil, List.append_nil] at hnothing
      apply Prod.ext
      · exact (congrArg Prod.fst hnothing).symm
      · apply Prod.ext
        · exact List.self_eq_append_right.mp (congrArg (fun result ↦ result.2.1) hnothing)
        · exact (congrArg (fun result ↦ result.2.2) hnothing).symm
    rw [feed, ih _ _ hdrained, List.flatten_cons, ← List.append_assoc,
      parser.drain_append state (left ++ chunk)]

end ChunkParser

end Sdrmm
