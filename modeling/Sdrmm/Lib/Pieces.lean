import Mathlib.Data.List.Basic
import Mathlib.Tactic

/-!
# Pieces of a memory

A piece is a start address with the values from there on.  Pieces are both what is known of a memory
and what is written to it.  `Agrees.overwrite` is when writing some pieces turns what is known before
into what shall hold after.
-/

namespace Sdrmm

abbrev Piece (β : Type*) := ℕ × List β

namespace Piece

variable {β : Type*}

/-- The value of a piece at an address. -/
def at? (piece : Piece β) (addr : ℕ) : Option β :=
  if piece.1 ≤ addr then piece.2[addr - piece.1]? else none

def write (memory : ℕ → β) (piece : Piece β) : ℕ → β :=
  fun addr ↦ (piece.at? addr).getD (memory addr)

/-- Write pieces one after another. -/
def overwrite (memory : ℕ → β) (pieces : List (Piece β)) : ℕ → β := pieces.foldl write memory

/-- A memory has the values of some pieces. -/
def Agrees (memory : ℕ → β) (pieces : List (Piece β)) : Prop :=
  ∀ piece ∈ pieces, ∀ addr value, piece.at? addr = some value → memory addr = value

/-- No address lies in two pieces. -/
def Apart (pieces : List (Piece β)) : Prop :=
  ∀ p ∈ pieces, ∀ q ∈ pieces, ∀ addr, (p.at? addr).isSome → (q.at? addr).isSome → p = q

/-- A piece with its values lies in another one. -/
def Inside (p q : Piece β) : Prop :=
  q.1 ≤ p.1 ∧ p.1 + p.2.length ≤ q.1 + q.2.length ∧ ∀ addr value,
    p.at? addr = some value → q.at? addr = some value

variable {memory : ℕ → β} {pieces : List (Piece β)} {piece : Piece β} {addr : ℕ} {value : β}

theorem at?_eq_some : piece.at? addr = some value ↔
    piece.1 ≤ addr ∧ piece.2[addr - piece.1]? = some value := by
  rw [at?]
  split_ifs with hle
  · simp [hle]
  · simp [hle]

theorem isSome_at? : (piece.at? addr).isSome ↔ piece.1 ≤ addr ∧ addr < piece.1 + piece.2.length := by
  rw [at?]
  split_ifs with hle
  · rw [Option.isSome_iff_ne_none, ne_eq, List.getElem?_eq_none_iff]
    omega
  · simp [hle]

theorem at?_eq_none_of_nil (hempty : piece.2 = []) : piece.at? addr = none := by
  rw [at?, hempty]
  split_ifs <;> rfl

/-- The values of a stretch of a piece. -/
theorem at?_stretch {skip count : ℕ} :
    Piece.at? (piece.1 + skip, (piece.2.drop skip).take count) addr = some value ↔
      piece.1 + skip ≤ addr ∧ addr < piece.1 + skip + count ∧ piece.at? addr = some value := by
  rw [at?_eq_some, at?_eq_some]
  constructor
  · rintro ⟨hle, hvalue⟩
    have hlt := (List.getElem?_eq_some_iff.mp hvalue).1
    rw [List.length_take] at hlt
    have hcount : addr - (piece.1 + skip) < count := by omega
    rw [List.getElem?_take_of_lt hcount, List.getElem?_drop] at hvalue
    have hplace : skip + (addr - (piece.1 + skip)) = addr - piece.1 := by omega
    rw [hplace] at hvalue
    exact ⟨hle, by omega, by omega, hvalue⟩
  · rintro ⟨hle, hlt, _, hvalue⟩
    have hplace : skip + (addr - (piece.1 + skip)) = addr - piece.1 := by omega
    refine ⟨hle, ?_⟩
    rw [List.getElem?_take_of_lt (by omega), List.getElem?_drop, hplace, hvalue]

/-- A stretch of a piece is there in every piece that it lies in. -/
theorem Inside.stretch_eq {p q : Piece β} (hinside : Inside p q) {skip count : ℕ}
    (hfits : skip + count ≤ p.2.length) :
    (p.2.drop skip).take count = (q.2.drop (p.1 + skip - q.1)).take count := by
  obtain ⟨hle, _, hvalues⟩ := hinside
  apply List.ext_getElem?
  intro i
  by_cases hi : i < count
  · rw [List.getElem?_take_of_lt hi, List.getElem?_take_of_lt hi, List.getElem?_drop,
      List.getElem?_drop]
    have hvalue : p.2[skip + i]? = some p.2[skip + i] := List.getElem?_eq_getElem (by omega)
    have hplace : p.1 + (skip + i) - p.1 = skip + i := by omega
    have hfound := hvalues (p.1 + (skip + i)) p.2[skip + i]
      (at?_eq_some.mpr ⟨by omega, by rw [hplace, hvalue]⟩)
    have hoffset : p.1 + (skip + i) - q.1 = p.1 + skip - q.1 + i := by omega
    rw [hvalue, ← hoffset]
    exact (at?_eq_some.mp hfound).2.symm
  · rw [List.getElem?_eq_none (by rw [List.length_take]; omega),
      List.getElem?_eq_none (by rw [List.length_take]; omega)]

/-! ## Writing -/

theorem overwrite_of_none (hnone : ∀ piece ∈ pieces, piece.at? addr = none) :
    overwrite memory pieces addr = memory addr := by
  induction pieces generalizing memory with
  | nil => rfl
  | cons piece pieces ih =>
    rw [List.forall_mem_cons] at hnone
    rw [overwrite, List.foldl_cons]
    refine (ih hnone.2).trans ?_
    rw [write, hnone.1, Option.getD_none]

/-- Where all pieces written have the same value it does not matter which one comes last. -/
theorem overwrite_of_some (hsame : ∀ piece ∈ pieces, ∀ other, piece.at? addr = some other →
    other = value) (hsome : ∃ piece ∈ pieces, (piece.at? addr).isSome) :
    overwrite memory pieces addr = value := by
  induction pieces generalizing memory with
  | nil => simp at hsome
  | cons piece pieces ih =>
    rw [List.forall_mem_cons] at hsame
    rw [overwrite, List.foldl_cons]
    by_cases hrest : ∃ piece ∈ pieces, (piece.at? addr).isSome
    · exact ih hsame.2 hrest
    · have hnone : ∀ piece ∈ pieces, piece.at? addr = none := by
        intro other hother
        by_contra hne
        exact hrest ⟨other, hother, Option.isSome_iff_ne_none.mpr hne⟩
      have hfirst : (piece.at? addr).isSome := by
        obtain ⟨other, hother, hcovers⟩ := hsome
        rcases List.mem_cons.mp hother with rfl | hmem
        · exact hcovers
        · exact absurd ⟨other, hmem, hcovers⟩ hrest
      obtain ⟨found, hfound⟩ := Option.isSome_iff_exists.mp hfirst
      refine (overwrite_of_none hnone).trans ?_
      rw [write, hfound, Option.getD_some]
      exact hsame.1 found hfound

/-- Writing parts of the pieces `after` is enough if they cover all that the pieces `before` do not
already hold. -/
theorem Agrees.overwrite {before after : List (Piece β)} (hagrees : Agrees memory before)
    (hapart : Apart after)
    (hparts : ∀ part ∈ pieces, ∃ piece ∈ after, ∀ addr value, part.at? addr = some value →
      piece.at? addr = some value)
    (hcover : ∀ piece ∈ after, ∀ addr value, piece.at? addr = some value →
      (∃ part ∈ pieces, (part.at? addr).isSome) ∨
        ∃ held ∈ before, held.at? addr = some value) :
    Agrees (Piece.overwrite memory pieces) after := by
  intro piece hpiece addr value hvalue
  have hsame : ∀ part ∈ pieces, ∀ other, part.at? addr = some other → other = value := by
    intro part hpart other hother
    obtain ⟨owner, howner, hinside⟩ := hparts part hpart
    have hfound := hinside addr other hother
    obtain rfl := hapart owner howner piece hpiece addr (by rw [hfound]; rfl) (by rw [hvalue]; rfl)
    exact Option.some.inj (hfound.symm.trans hvalue)
  by_cases hwritten : ∃ part ∈ pieces, (part.at? addr).isSome
  · exact overwrite_of_some hsame hwritten
  · obtain ⟨held, hheld, hbyte⟩ := (hcover piece hpiece addr value hvalue).resolve_left hwritten
    have hnone : ∀ part ∈ pieces, part.at? addr = none := by
      intro part hpart
      by_contra hne
      exact hwritten ⟨part, hpart, Option.isSome_iff_ne_none.mpr hne⟩
    rw [overwrite_of_none hnone]
    exact hagrees held hheld addr value hbyte

end Piece

end Sdrmm
