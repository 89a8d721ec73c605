import Mathlib.Tactic

/-!
# Checked access

A function of the source may stop in two ways before it has a result: it returns nothing, or it
reads outside an array or subtracts below zero.  The two are kept apart, so that never panicking is
a statement about a function's result.  The rules at the end take a loop in which no step stops to
the loop without checks.
-/

namespace Sdrmm.Lib.Checked

/-- Why a computation stopped without a result. -/
inductive Halt where
  | panic
  | failed
  deriving DecidableEq, Repr

variable {α σ : Type}

/-- `xs[i]`. -/
def index (xs : List α) (i : ℕ) : Except Halt α :=
  match xs[i]? with
  | some x => .ok x
  | none => .error .panic

/-- Change `xs[i]` in place. -/
def update (xs : List α) (i : ℕ) (f : α → α) : Except Halt (List α) :=
  if i < xs.length then .ok (xs.modify i f) else .error .panic

/-- `a - b` on unsigned integers. -/
def sub (a b : ℕ) : Except Halt ℕ := if b ≤ a then .ok (a - b) else .error .panic

/-- `xs[low..high]`. -/
def slice (xs : List α) (low high : ℕ) : Except Halt (List α) :=
  if low ≤ high ∧ high ≤ xs.length then .ok ((xs.take high).drop low) else .error .panic

/-- `xs[..count].fill(x)`. -/
def fill (xs : List α) (count : ℕ) (x : α) : Except Halt (List α) :=
  if count ≤ xs.length then .ok (List.replicate count x ++ xs.drop count) else .error .panic

/-- The `?` operator on an option. -/
def orFail : Option α → Except Halt α
  | some a => .ok a
  | none => .error .failed

/-- An option that must hold something. -/
def orPanic : Option α → Except Halt α
  | some a => .ok a
  | none => .error .panic

theorem index_of_lt {xs : List α} {i : ℕ} (hi : i < xs.length) (default : α) :
    index xs i = .ok (xs.getD i default) := by
  rw [index, List.getD_eq_getElem?_getD, List.getElem?_eq_getElem hi, Option.getD_some]

theorem update_of_lt {xs : List α} {i : ℕ} (hi : i < xs.length) (f : α → α) :
    update xs i f = .ok (xs.modify i f) := if_pos hi

theorem sub_of_le {a b : ℕ} (hle : b ≤ a) : sub a b = .ok (a - b) := if_pos hle

theorem slice_of_le {xs : List α} {low high : ℕ} (hlow : low ≤ high) (hhigh : high ≤ xs.length) :
    slice xs low high = .ok ((xs.take high).drop low) := if_pos ⟨hlow, hhigh⟩

theorem ok_bind {β : Type} (a : α) (f : α → Except Halt β) : ((.ok a : Except Halt α) >>= f) = f a := rfl

theorem bind_eq_ok {β : Type} {x : Except Halt α} {f : α → Except Halt β} {b : β} :
    (x >>= f) = .ok b ↔ ∃ a, x = .ok a ∧ f a = .ok b := by
  cases x with
  | error halt => exact ⟨nofun, fun ⟨_, h, _⟩ ↦ nomatch h⟩
  | ok a => exact ⟨fun h ↦ ⟨a, rfl, h⟩, fun ⟨_, ha, h⟩ ↦ Except.ok.inj ha ▸ h⟩

/-- A computation that goes on only after one that does not panic. -/
theorem bind_ne_panic {β : Type} {x : Except Halt α} {f : α → Except Halt β}
    (hx : x ≠ .error .panic) (hf : ∀ a, x = .ok a → f a ≠ .error .panic) :
    (x >>= f) ≠ .error .panic := by
  cases x with
  | error halt => exact fun h ↦ hx (congrArg Except.error (Except.error.inj h))
  | ok a => exact hf a rfl

theorem orFail_ne_panic (x : Option α) : orFail x ≠ .error .panic := by
  cases x <;> exact nofun

theorem orFail_eq_ok {x : Option α} {a : α} : orFail x = .ok a ↔ x = some a := by
  cases x with
  | none => exact ⟨nofun, nofun⟩
  | some b => exact ⟨fun h ↦ congrArg some (Except.ok.inj h), fun h ↦ congrArg Except.ok (Option.some.inj h)⟩

/-! ## Loops -/

/-- A counting loop whose steps keep an invariant ends in it. -/
theorem exists_foldlM_range (step : σ → ℕ → Except Halt σ) (inv : ℕ → σ → Prop) (count : ℕ)
    (hstep : ∀ n < count, ∀ s, inv n s → ∃ s', step s n = .ok s' ∧ inv (n + 1) s') {s : σ}
    (hs : inv 0 s) : ∃ s', (List.range count).foldlM step s = .ok s' ∧ inv count s' := by
  induction count with
  | zero => exact ⟨s, rfl, hs⟩
  | succ count ih =>
    obtain ⟨s', hrun, hinv⟩ := ih fun n hn ↦ hstep n (Nat.lt_succ_of_lt hn)
    obtain ⟨s'', hlast, hinv'⟩ := hstep count (Nat.lt_succ_self count) s' hinv
    refine ⟨s'', ?_, hinv'⟩
    rw [List.range_succ, List.foldlM_append, hrun, ok_bind, List.foldlM_cons, hlast, ok_bind]
    rfl

/-- A loop over `start..start + count` whose steps keep an invariant ends in it. -/
theorem exists_foldlM_range' (step : σ → ℕ → Except Halt σ) (inv : ℕ → σ → Prop) (start count : ℕ)
    (hstep : ∀ n < count, ∀ s, inv n s → ∃ s', step s (start + n) = .ok s' ∧ inv (n + 1) s') {s : σ}
    (hs : inv 0 s) : ∃ s', (List.range' start count).foldlM step s = .ok s' ∧ inv count s' := by
  rw [List.range'_eq_map_range, List.foldlM_map]
  exact exists_foldlM_range (fun s n ↦ step s (start + n)) inv count hstep hs

/-- A loop whose steps are `next` as long as an invariant holds is the loop over `next`. -/
theorem foldlM_eq_foldl {ι : Type} (step : σ → ι → Except Halt σ) (next : σ → ι → σ)
    (inv : σ → Prop) (items : List ι)
    (hstep : ∀ item ∈ items, ∀ s, inv s → step s item = .ok (next s item) ∧ inv (next s item))
    {s : σ} (hs : inv s) :
    items.foldlM step s = .ok (items.foldl next s) ∧ inv (items.foldl next s) := by
  induction items generalizing s with
  | nil => exact ⟨rfl, hs⟩
  | cons item items ih =>
    obtain ⟨hnext, hinv⟩ := hstep item List.mem_cons_self s hs
    rw [List.foldlM_cons, hnext, List.foldl_cons]
    exact ih (fun item' hmem ↦ hstep item' (List.mem_cons_of_mem item hmem)) hinv

theorem mapM_eq_map {ι β : Type} {f : ι → Except Halt β} {g : ι → β} (items : List ι)
    (hitem : ∀ item ∈ items, f item = .ok (g item)) : items.mapM f = .ok (items.map g) := by
  induction items with
  | nil => rfl
  | cons item items ih =>
    rw [List.mapM_cons, hitem item List.mem_cons_self, ok_bind,
      ih fun item' hmem ↦ hitem item' (List.mem_cons_of_mem item hmem), ok_bind]
    rfl

/-! ## Lists that are read as functions -/

section Holds

variable {xs : List α} {count i : ℕ} {f : ℕ → α}

/-- The first `count` elements of a list. -/
def Holds (xs : List α) (count : ℕ) (f : ℕ → α) : Prop := ∀ i < count, xs[i]? = some (f i)

theorem Holds.index (hholds : Holds xs count f) (hi : i < count) : index xs i = .ok (f i) := by
  rw [Checked.index, hholds i hi]

theorem Holds.lt_length (hholds : Holds xs count f) (hi : i < count) : i < xs.length :=
  (List.getElem?_eq_some_iff.mp (hholds i hi)).1

theorem Holds.update (hholds : Holds xs count f) (hi : i < count) (change : α → α) :
    Checked.update xs i change = .ok (xs.modify i change) := update_of_lt (hholds.lt_length hi) change

theorem Holds.modify (hholds : Holds xs count f) (i : ℕ) (change : α → α) :
    Holds (xs.modify i change) count fun k ↦ if k = i then change (f k) else f k := by
  intro k hk
  rw [List.getElem?_modify, hholds k hk]
  refine congrArg some ?_
  by_cases hik : i = k
  · exact (if_pos hik).trans (if_pos hik.symm).symm
  · exact (if_neg hik).trans (if_neg (Ne.symm hik)).symm

theorem Holds.congr {g : ℕ → α} (hholds : Holds xs count f) (heq : ∀ i < count, f i = g i) :
    Holds xs count g := by
  intro i hi
  rw [hholds i hi, heq i hi]

theorem fill_of_le (hcount : count ≤ xs.length) (x : α) :
    fill xs count x = .ok (List.replicate count x ++ xs.drop count) := if_pos hcount

theorem length_filled (hcount : count ≤ xs.length) (x : α) :
    (List.replicate count x ++ xs.drop count).length = xs.length := by
  rw [List.length_append, List.length_replicate, List.length_drop, Nat.add_sub_cancel' hcount]

theorem holds_filled (rest : List α) (x : α) : Holds (List.replicate count x ++ rest) count fun _ ↦ x := by
  intro i hi
  rw [List.getElem?_append_left (by rwa [List.length_replicate]), List.getElem?_replicate_of_lt hi]

end Holds

end Sdrmm.Lib.Checked
