import Mathlib.Tactic

/-!
# Names that fit a radio

Names are cut to a length and then made unique by a running number, `UniqueNames` of
`cps/src/catalog.rs` and `rename_all` of `cps/src/convert.rs`.  `renameAll_resolve` is that references
follow their items.  `renameAll_fits` says when the numbered names still have the length they were
cut to.
-/

namespace Sdrmm.Cps

/-- How often each name has been seen, zero for a name that has no entry. -/
structure UniqueNames where
  seen : String → ℕ

def numberedName (base : String) (count : ℕ) : String := base ++ " (" ++ toString count ++ ")"

namespace UniqueNames

def new : UniqueNames := ⟨fun _ ↦ 0⟩

def claim (unique : UniqueNames) (wanted fallback : String) : UniqueNames × String :=
  let base := if wanted.isEmpty then fallback else wanted
  let count := unique.seen base + 1
  let seen := Function.update unique.seen base count
  if count = 1 then (⟨seen⟩, base)
  else
    let candidate := numberedName base count
    (⟨if seen candidate = 0 then Function.update seen candidate 1 else seen⟩, candidate)

end UniqueNames

def truncate (name : String) (max : ℕ) : String :=
  let max := Max.max max 1
  if name.length ≤ max then name else String.ofList (name.toList.take max)

/-- New names, in order, and the new name of each old one. -/
structure Renamed where
  mapped : List String
  renames : String → Option String

def Renamed.resolve (renamed : Renamed) (name : String) : Option String := renamed.renames name

def renameFrom (maxLen : ℕ) :
    UniqueNames → (String → Option String) → List String → Renamed
  | _, renames, [] => ⟨[], renames⟩
  | unique, renames, name :: names =>
      let claimed := unique.claim (truncate name maxLen) "Item"
      let rest := renameFrom maxLen claimed.1 (Function.update renames name (some claimed.2)) names
      ⟨claimed.2 :: rest.mapped, rest.renames⟩

def renameAll (names : List String) (maxLen : ℕ) : Renamed :=
  renameFrom maxLen .new (fun _ ↦ none) names

/-! ## References follow their items -/

section Resolve

variable {maxLen : ℕ} {unique : UniqueNames} {renames : String → Option String}
  {names : List String}

theorem renameFrom_length :
    (renameFrom maxLen unique renames names).mapped.length = names.length := by
  induction names generalizing unique renames with
  | nil => rfl
  | cons name names ih => exact congrArg Nat.succ ih

theorem renameFrom_of_notMem (maxLen : ℕ) (unique : UniqueNames) (renames : String → Option String)
    {name : String} (hname : name ∉ names) :
    (renameFrom maxLen unique renames names).resolve name = renames name := by
  induction names generalizing unique renames with
  | nil => rfl
  | cons first names ih =>
    rw [List.mem_cons, not_or] at hname
    have hrest := ih (unique.claim (truncate first maxLen) "Item").1
      (Function.update renames first (some (unique.claim (truncate first maxLen) "Item").2)) hname.2
    rw [Function.update_of_ne hname.1] at hrest
    exact hrest

theorem renameFrom_resolve (hnodup : names.Nodup) {i : ℕ} {name : String}
    (hname : names[i]? = some name) :
    (renameFrom maxLen unique renames names).resolve name =
      (renameFrom maxLen unique renames names).mapped[i]? := by
  induction names generalizing unique renames i with
  | nil => cases hname
  | cons first names ih =>
    rw [List.nodup_cons] at hnodup
    cases i with
    | zero =>
      obtain rfl := Option.some.inj hname
      have hrest := renameFrom_of_notMem maxLen
        (unique.claim (truncate first maxLen) "Item").1
        (Function.update renames first (some (unique.claim (truncate first maxLen) "Item").2))
        hnodup.1
      rw [Function.update_self] at hrest
      exact hrest
    | succ i => exact ih hnodup.2 hname

theorem renameFrom_isSome {name : String} (hname : name ∈ names ∨ (renames name).isSome) :
    ((renameFrom maxLen unique renames names).resolve name).isSome := by
  induction names generalizing unique renames with
  | nil => exact hname.resolve_left (List.not_mem_nil)
  | cons first names ih =>
    apply ih
    by_cases hfirst : name = first
    · right
      rw [hfirst, Function.update_self]
      rfl
    · rw [Function.update_of_ne hfirst]
      exact hname.imp_left fun hmem ↦ (List.mem_cons.mp hmem).resolve_left hfirst

end Resolve

theorem renameAll_isSome {names : List String} {name : String} (hname : name ∈ names) (maxLen : ℕ) :
    ∃ new, (renameAll names maxLen).resolve name = some new :=
  Option.isSome_iff_exists.mp (renameFrom_isSome (Or.inl hname))

/-- A name resolves to the new name of the item that has it. -/
theorem renameAll_resolve {names : List String} (hnodup : names.Nodup) (maxLen : ℕ)
    (name renamed : String) :
    (renameAll names maxLen).resolve name = some renamed ↔
      ∃ i : ℕ, names[i]? = some name ∧ (renameAll names maxLen).mapped[i]? = some renamed := by
  constructor
  · intro hresolve
    by_cases hname : name ∈ names
    · obtain ⟨i, hi⟩ := List.mem_iff_getElem?.mp hname
      refine ⟨i, hi, ?_⟩
      rw [← hresolve]
      exact (renameFrom_resolve hnodup hi).symm
    · rw [renameAll, renameFrom_of_notMem _ _ _ hname] at hresolve
      cases hresolve
  · rintro ⟨i, hi, hmapped⟩
    rw [← hmapped]
    exact renameFrom_resolve hnodup hi

/-! ## Names that fit -/

/-- What a name is before it is numbered. -/
def baseName (name : String) (maxLen : ℕ) : String :=
  let shortened := truncate name maxLen
  if shortened.isEmpty then "Item" else shortened

/-- The running number of the next item with a base name, after items with the base names `earlier`,
the last one first: it counts those with the same base name, and one more if the base name was handed
out as a numbered one before that. -/
def runningNumber : List String → String → ℕ
  | [], _ => 1
  | last :: earlier, base =>
      runningNumber earlier base +
        if last = base then 1
        else if runningNumber earlier base = 1 ∧ 1 < runningNumber earlier last ∧
            base = numberedName last (runningNumber earlier last) then 1
        else 0

/-- Every base name fits, and so does every numbered one where the running number is not the first. -/
def NamesFit (maxLen : ℕ) : List String → List String → Prop
  | _, [] => True
  | earlier, name :: names =>
      let base := baseName name maxLen
      base.length ≤ maxLen ∧
        (1 < runningNumber earlier base →
          (numberedName base (runningNumber earlier base)).length ≤ maxLen) ∧
        NamesFit maxLen (base :: earlier) names

/-- The counts of a run of claims, by their base names. -/
def UniqueNames.Counts (unique : UniqueNames) (earlier : List String) : Prop :=
  ∀ name, runningNumber earlier name = unique.seen name + 1

theorem numberedName_ne (base : String) (count : ℕ) : numberedName base count ≠ base := by
  intro hsame
  have hlength := congrArg String.length hsame
  simp only [numberedName, String.length_append] at hlength
  have : (" (" : String).length = 2 := rfl
  omega

/-- What `claim` works on: the name wanted, or the fallback for an empty one. -/
def claimedBase (wanted fallback : String) : String := if wanted.isEmpty then fallback else wanted

theorem UniqueNames.claim_snd {unique : UniqueNames} {earlier : List String}
    (hcounts : unique.Counts earlier) (wanted fallback : String) :
    (unique.claim wanted fallback).2 =
      if runningNumber earlier (claimedBase wanted fallback) = 1 then claimedBase wanted fallback
      else numberedName (claimedBase wanted fallback)
        (runningNumber earlier (claimedBase wanted fallback)) := by
  rw [claim, hcounts]
  simp only [claimedBase]
  split_ifs <;> rfl

/-- The counts after a claim: its base name once more, and a numbered name that was not there yet. -/
theorem UniqueNames.claim_seen (unique : UniqueNames) (wanted fallback other : String) :
    (unique.claim wanted fallback).1.seen other =
      unique.seen other +
        if claimedBase wanted fallback = other then 1
        else if unique.seen other = 0 ∧ 0 < unique.seen (claimedBase wanted fallback) ∧
            other = numberedName (claimedBase wanted fallback)
              (unique.seen (claimedBase wanted fallback) + 1) then 1
        else 0 := by
  have hbase : (if wanted.isEmpty then fallback else wanted) = claimedBase wanted fallback := rfl
  rw [claim, hbase]
  generalize claimedBase wanted fallback = base
  have hne := numberedName_ne base (unique.seen base + 1)
  by_cases hfirst : unique.seen base = 0
  · by_cases hother : base = other
    · subst hother
      simp [hfirst]
    · simp [hfirst, hother, Function.update_of_ne (Ne.symm hother)]
  · have hpos : 0 < unique.seen base := Nat.pos_of_ne_zero hfirst
    have hcount : ¬unique.seen base + 1 = 1 := by omega
    simp only [if_neg hcount, Function.update_of_ne hne]
    by_cases hother : base = other
    · subst hother
      rw [if_pos rfl]
      by_cases hseen : unique.seen (numberedName base (unique.seen base + 1)) = 0
      · rw [if_pos hseen, Function.update_of_ne hne.symm, Function.update_self]
      · rw [if_neg hseen, Function.update_self]
    · rw [if_neg hother]
      by_cases hnew : other = numberedName base (unique.seen base + 1)
      · subst hnew
        by_cases hseen : unique.seen (numberedName base (unique.seen base + 1)) = 0
        · simp [hseen, hpos]
        · simp [hseen, Function.update_of_ne hne]
      · have hnone : ¬(unique.seen other = 0 ∧ 0 < unique.seen base ∧
            other = numberedName base (unique.seen base + 1)) := fun hall ↦ hnew hall.2.2
        rw [if_neg hnone, add_zero]
        by_cases hseen : unique.seen (numberedName base (unique.seen base + 1)) = 0
        · rw [if_pos hseen, Function.update_of_ne hnew, Function.update_of_ne (Ne.symm hother)]
        · rw [if_neg hseen, Function.update_of_ne (Ne.symm hother)]

theorem UniqueNames.Counts.claim {unique : UniqueNames} {earlier : List String}
    (hcounts : unique.Counts earlier) (wanted fallback : String) :
    (unique.claim wanted fallback).1.Counts (claimedBase wanted fallback :: earlier) := by
  intro other
  rw [runningNumber, hcounts, hcounts, claim_seen]
  simp only [Nat.add_eq_right, Nat.lt_add_left_iff_pos]
  exact add_right_comm _ _ _

theorem renameFrom_fits {maxLen : ℕ} {unique : UniqueNames} {renames : String → Option String}
    {earlier names : List String} (hcounts : unique.Counts earlier) :
    (∀ claimed ∈ (renameFrom maxLen unique renames names).mapped, claimed.length ≤ maxLen) ↔
      NamesFit maxLen earlier names := by
  induction names generalizing unique renames earlier with
  | nil => simp [renameFrom, NamesFit]
  | cons name names ih =>
    have hbase : claimedBase (truncate name maxLen) "Item" = baseName name maxLen := rfl
    rw [renameFrom, List.forall_mem_cons, ih (hcounts.claim _ "Item"), NamesFit,
      UniqueNames.claim_snd hcounts, hbase, ← and_assoc]
    apply and_congr_left'
    have hpos : 0 < runningNumber earlier (baseName name maxLen) := by
      rw [hcounts]
      exact Nat.succ_pos _
    have hgrows : (baseName name maxLen).length ≤ (numberedName (baseName name maxLen)
        (runningNumber earlier (baseName name maxLen))).length := by
      simp only [numberedName, String.length_append]
      omega
    split_ifs with hfirst
    · simp [hfirst]
    · constructor
      · intro hfits
        exact ⟨hgrows.trans hfits, fun _ ↦ hfits⟩
      · intro hfits
        exact hfits.2 (by omega)

/-- All names fit exactly if their base names and numbers do. -/
theorem renameAll_fits (names : List String) (maxLen : ℕ) :
    (∀ claimed ∈ (renameAll names maxLen).mapped, claimed.length ≤ maxLen) ↔
      NamesFit maxLen [] names :=
  renameFrom_fits fun _ ↦ rfl

end Sdrmm.Cps
