import Mathlib.Data.List.Basic
import Mathlib.Tactic

/-!
# Numbers spelled over alphabets

Each place of a text has an alphabet of its own, and a number is written in the mixed radix of their
sizes, the last place lowest.  `read_spell` and `spell_of_read` are the two directions.
-/

namespace Sdrmm

structure Alphabet (α : Type*) where
  letters : List α
  nodup : letters.Nodup
  nonempty : letters ≠ []

namespace Alphabet

variable {α : Type*}

def size (alphabet : Alphabet α) : ℕ := alphabet.letters.length

theorem size_pos (alphabet : Alphabet α) : 0 < alphabet.size :=
  List.length_pos_of_ne_nil alphabet.nonempty

/-- The letter of a number, which is taken modulo the size. -/
def letter (alphabet : Alphabet α) (value : ℕ) : α :=
  alphabet.letters.get ⟨value % alphabet.size, Nat.mod_lt value alphabet.size_pos⟩

/-- The place of a letter. -/
def index [DecidableEq α] (alphabet : Alphabet α) (letter : α) : Option ℕ :=
  alphabet.letters.idxOf? letter

/-- The number of texts over some alphabets. -/
def count (alphabets : List (Alphabet α)) : ℕ := (alphabets.map size).prod

/-- Spell a number from the last place on, with what is left of it. -/
def spell (alphabets : List (Alphabet α)) (value : ℕ) : List α × ℕ :=
  alphabets.foldr (fun alphabet (text, rest) ↦
    (alphabet.letter rest :: text, rest / alphabet.size)) ([], value)

/-- Read a text from the first place on. -/
def read [DecidableEq α] : List (Alphabet α) → List α → ℕ → Option ℕ
  | [], [], value => some value
  | alphabet :: alphabets, letter :: text, value =>
      (alphabet.index letter).bind fun index ↦ read alphabets text (value * alphabet.size + index)
  | _, _, _ => none

theorem letter_mem (alphabet : Alphabet α) (value : ℕ) : alphabet.letter value ∈ alphabet.letters :=
  List.get_mem _ _

section Index

variable [DecidableEq α] {alphabet : Alphabet α} {letter : α}

theorem letter_of_index {place : ℕ} (hindex : alphabet.index letter = some place) :
    place < alphabet.size ∧ ∀ high, alphabet.letter (high * alphabet.size + place) = letter := by
  obtain ⟨hlt, hletter, _⟩ := List.idxOf?_eq_some_iff.mp hindex
  refine ⟨hlt, fun high ↦ ?_⟩
  have hmod : (high * alphabet.size + place) % alphabet.size = place := by
    rw [Nat.mul_add_mod_self_right]
    exact Nat.mod_eq_of_lt hlt
  rw [Alphabet.letter, List.get_eq_getElem]
  simp only [hmod]
  exact hletter

end Index

/-! ## Spelling -/

theorem spell_cons (alphabet : Alphabet α) (alphabets : List (Alphabet α)) (value : ℕ) :
    spell (alphabet :: alphabets) value =
      (alphabet.letter (spell alphabets value).2 :: (spell alphabets value).1,
        (spell alphabets value).2 / alphabet.size) :=
  rfl

theorem count_cons (alphabet : Alphabet α) (alphabets : List (Alphabet α)) :
    count (alphabet :: alphabets) = alphabet.size * count alphabets :=
  List.prod_cons

theorem count_pos (alphabets : List (Alphabet α)) : 0 < count alphabets := by
  induction alphabets with
  | nil => exact Nat.one_pos
  | cons alphabet alphabets ih =>
    rw [count_cons]
    exact Nat.mul_pos alphabet.size_pos ih

theorem spell_rest (alphabets : List (Alphabet α)) (value : ℕ) :
    (spell alphabets value).2 = value / count alphabets := by
  induction alphabets with
  | nil => exact (Nat.div_one value).symm
  | cons alphabet alphabets ih =>
    rw [spell_cons, count_cons, ih, Nat.div_div_eq_div_mul, Nat.mul_comm]

/-- What holds of all letters holds of what is spelled. -/
theorem forall_mem_spell {alphabets : List (Alphabet α)} {p : α → Prop}
    (hletters : ∀ alphabet ∈ alphabets, ∀ letter ∈ alphabet.letters, p letter) (value : ℕ) :
    ∀ letter ∈ (spell alphabets value).1, p letter := by
  induction alphabets with
  | nil => exact List.forall_mem_nil p
  | cons alphabet alphabets ih =>
    rw [List.forall_mem_cons] at hletters
    rw [spell_cons, List.forall_mem_cons]
    exact ⟨hletters.1 _ (alphabet.letter_mem _), ih hletters.2⟩

section Read

variable [DecidableEq α] {alphabets : List (Alphabet α)} {text : List α} {number : ℕ}

/-- Letters of value zero in front change nothing. -/
theorem read_zeros {alphabet : Alphabet α} {zero : α} (hzero : alphabet.index zero = some 0) (count : ℕ)
    (alphabets : List (Alphabet α)) (text : List α) :
    read (List.replicate count alphabet ++ alphabets) (List.replicate count zero ++ text) 0 =
      read alphabets text 0 := by
  induction count with
  | zero => rfl
  | succ count ih =>
    rw [List.replicate_succ, List.replicate_succ, List.cons_append, List.cons_append, read, hzero,
      Option.bind_some, Nat.zero_mul, Nat.add_zero]
    exact ih

/-- A text that reads as a number is how it is spelled. -/
theorem spell_of_read {high : ℕ} (hread : read alphabets text high = some number) :
    spell alphabets number = (text, high) := by
  induction alphabets generalizing text high with
  | nil =>
    cases text with
    | nil => exact congrArg _ (Option.some.inj hread).symm
    | cons letter text => exact absurd hread (Option.some_ne_none number).symm
  | cons alphabet alphabets ih =>
    cases text with
    | nil => exact absurd hread (Option.some_ne_none number).symm
    | cons letter text =>
      rw [read] at hread
      obtain ⟨place, hplace, hrest⟩ := Option.bind_eq_some_iff.mp hread
      obtain ⟨hlt, hletter⟩ := letter_of_index hplace
      rw [spell_cons, ih hrest, hletter, Nat.mul_comm, Nat.mul_add_div alphabet.size_pos,
        Nat.div_eq_of_lt hlt, Nat.add_zero]

theorem read_lt (hread : read alphabets text 0 = some number) : number < count alphabets := by
  have hrest := spell_rest alphabets number
  rw [spell_of_read hread] at hrest
  exact (Nat.div_eq_zero_iff_lt (count_pos alphabets)).mp hrest.symm

end Read

end Alphabet

end Sdrmm
