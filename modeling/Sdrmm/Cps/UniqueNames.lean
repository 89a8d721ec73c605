import Sdrmm.Cps.Names

/-!
# Which names come out unique

`UniqueNames` of `cps/src/catalog.rs` numbers a name that was claimed before.  The numbered name is
handed out even where an earlier claim asked for that very name and got it.  `claimAll_nodup` is that
names are distinct exactly as long as this does not happen.
-/

namespace Sdrmm.Cps

/-! ## Numbered names -/

/-- Read from its end a numbered name is a bracket, digits, and another bracket before the base. -/
theorem numberedName_reverse (base : String) (count : ℕ) :
    (numberedName base count).toList.reverse =
      ')' :: ((Nat.toDigits 10 count).reverse ++ '(' :: ' ' :: base.toList.reverse) := by
  simp only [numberedName, String.toList_append, Nat.toString_eq_ofList_toDigits,
    String.toList_ofList, List.reverse_append]
  rfl

theorem isDigit_of_mem_reverse {count : ℕ} :
    ∀ digit ∈ (Nat.toDigits 10 count).reverse, digit.isDigit = true := by
  intro digit hmem
  exact Nat.isDigit_of_mem_toDigits (by decide) (by decide) (List.mem_reverse.mp hmem)

/-- A numbered name tells its base and its number. -/
theorem numberedName_inj {a b : String} {m n : ℕ} (hsame : numberedName a m = numberedName b n) :
    a = b ∧ m = n := by
  have hreverse := congrArg (fun name ↦ name.toList.reverse) hsame
  simp only [numberedName_reverse, List.cons.injEq, true_and] at hreverse
  have hopen : ¬('(' : Char).isDigit = true := by decide
  have hdigits := congrArg (List.takeWhile Char.isDigit) hreverse
  have hbases := congrArg (List.dropWhile Char.isDigit) hreverse
  rw [List.takeWhile_append_of_pos isDigit_of_mem_reverse,
    List.takeWhile_append_of_pos isDigit_of_mem_reverse, List.takeWhile_cons_of_neg hopen,
    List.takeWhile_cons_of_neg hopen, List.append_nil, List.append_nil, List.reverse_inj] at hdigits
  rw [List.dropWhile_append_of_pos isDigit_of_mem_reverse,
    List.dropWhile_append_of_pos isDigit_of_mem_reverse, List.dropWhile_cons_of_neg hopen,
    List.dropWhile_cons_of_neg hopen] at hbases
  simp only [List.cons.injEq, true_and, List.reverse_inj] at hbases
  constructor
  · exact String.toList_inj.mp hbases
  · have hvalues := congrArg (Nat.ofDigitChars 10 · 0) hdigits
    simpa using hvalues

/-! ## A run of claims -/

/-- The names given to claims made one after another. -/
def claimAll : UniqueNames → List (String × String) → List String
  | _, [] => []
  | unique, (wanted, fallback) :: claims =>
      let claimed := unique.claim wanted fallback
      claimed.2 :: claimAll claimed.1 claims

/-- No claim is numbered into a name that a claim before it asked for; `earlier` are the base names
of the claims so far, the last one first. -/
def NumbersFree : List String → List String → Prop
  | _, [] => True
  | earlier, base :: bases =>
      (1 < runningNumber earlier base →
        numberedName base (runningNumber earlier base) ∉ earlier) ∧
      NumbersFree (base :: earlier) bases

instance : (earlier bases : List String) → Decidable (NumbersFree earlier bases)
  | _, [] => inferInstanceAs (Decidable True)
  | earlier, base :: bases =>
      have := instDecidableNumbersFree (base :: earlier) bases
      inferInstanceAs (Decidable (_ ∧ _))

def claimedBases (claims : List (String × String)) : List String :=
  claims.map fun (wanted, fallback) ↦ claimedBase wanted fallback

theorem runningNumber_pos (earlier : List String) (base : String) :
    1 ≤ runningNumber earlier base := by
  induction earlier with
  | nil => exact le_rfl
  | cons last earlier ih => exact ih.trans (Nat.le_add_right _ _)

/-- A name is no longer new once it was claimed or handed out as a numbered one. -/
theorem one_lt_runningNumber_cons (earlier : List String) (last name : String) :
    1 < runningNumber (last :: earlier) name ↔ 1 < runningNumber earlier name ∨ name = last ∨
      (1 < runningNumber earlier last ∧
        name = numberedName last (runningNumber earlier last)) := by
  have hpos := runningNumber_pos earlier name
  rw [runningNumber]
  by_cases hlast : last = name
  · simp only [hlast, if_true, true_or, or_true, iff_true]
    omega
  · rw [if_neg hlast]
    by_cases hnew : runningNumber earlier name = 1
    · simp only [hnew, true_and, lt_irrefl, false_or, Ne.symm hlast]
      split_ifs with hnumbered
      · simp [hnumbered]
      · simpa using fun hlt heq ↦ hnumbered ⟨hlt, heq⟩
    · have hold : 1 < runningNumber earlier name := by omega
      simp only [hnew, false_and, if_false, add_zero, hold, true_or]

theorem one_lt_runningNumber_of_mem {earlier : List String} {name : String}
    (hmem : name ∈ earlier) : 1 < runningNumber earlier name := by
  induction earlier with
  | nil => cases hmem
  | cons last earlier ih =>
    rw [one_lt_runningNumber_cons]
    rcases List.mem_cons.mp hmem with rfl | hold
    · exact Or.inr (Or.inl rfl)
    · exact Or.inl (ih hold)

/-- What is known of the names given so far: they are the names that are no longer new, and each was
claimed or is a numbered one whose number has been passed. -/
structure Given (earlier given : List String) : Prop where
  counted : ∀ name, name ∈ given ↔ 1 < runningNumber earlier name
  source : ∀ name ∈ given, name ∈ earlier ∨
    ∃ base count, name = numberedName base count ∧ count < runningNumber earlier base

theorem Given.nil : Given [] [] where
  counted name := by simp [runningNumber]
  source _ hname := absurd hname List.not_mem_nil

section Step

variable {earlier given : List String} {base : String}

theorem Given.source_cons (hgiven : Given earlier given) (base : String) {name : String}
    (hname : name ∈ given) : name ∈ base :: earlier ∨
      ∃ other count, name = numberedName other count ∧
        count < runningNumber (base :: earlier) other := by
  rcases hgiven.source name hname with hbase | ⟨other, count, heq, hlt⟩
  · exact Or.inl (List.mem_cons_of_mem _ hbase)
  · exact Or.inr ⟨other, count, heq, hlt.trans_le (Nat.le_add_right _ _)⟩

/-- A base name that is new is given as it is, and was not given before. -/
theorem Given.first (hgiven : Given earlier given) (hfirst : runningNumber earlier base = 1) :
    base ∉ given ∧ Given (base :: earlier) (base :: given) := by
  have hnew : ¬1 < runningNumber earlier base := by omega
  refine ⟨fun hmem ↦ hnew ((hgiven.counted base).mp hmem), ?_, ?_⟩
  · intro name
    rw [one_lt_runningNumber_cons, List.mem_cons, hgiven.counted]
    simp only [hnew, false_and, or_false]
    exact or_comm
  · intro name hname
    rcases List.mem_cons.mp hname with rfl | hold
    · exact Or.inl List.mem_cons_self
    · exact hgiven.source_cons base hold

/-- Any other is numbered, and the numbered name was given before exactly if it was claimed before,
because numbers only grow. -/
theorem Given.again (hgiven : Given earlier given) (hagain : 1 < runningNumber earlier base) :
    (numberedName base (runningNumber earlier base) ∈ given ↔
      numberedName base (runningNumber earlier base) ∈ earlier) ∧
    Given (base :: earlier) (numberedName base (runningNumber earlier base) :: given) := by
  refine ⟨⟨fun hmem ↦ ?_, fun hmem ↦ ?_⟩, ?_, ?_⟩
  · rcases hgiven.source _ hmem with hbase | ⟨other, count, heq, hlt⟩
    · exact hbase
    · obtain ⟨rfl, rfl⟩ := numberedName_inj heq
      exact absurd hlt (lt_irrefl _)
  · exact (hgiven.counted _).mpr (one_lt_runningNumber_of_mem hmem)
  · intro name
    rw [one_lt_runningNumber_cons, List.mem_cons, hgiven.counted]
    simp only [hagain, true_and]
    constructor
    · rintro (heq | hold)
      · exact Or.inr (Or.inr heq)
      · exact Or.inl hold
    · rintro (hold | rfl | heq)
      · exact Or.inr hold
      · exact Or.inr hagain
      · exact Or.inl heq
  · intro name hname
    rcases List.mem_cons.mp hname with rfl | hold
    · right
      refine ⟨base, _, rfl, ?_⟩
      rw [runningNumber, if_pos rfl]
      exact Nat.lt_succ_self _
    · exact hgiven.source_cons base hold

end Step

/-- The rest of a run: names stay apart from those given before and from each other. -/
theorem claimAll_apart {unique : UniqueNames} {earlier given : List String}
    (hcounts : unique.Counts earlier) (hgiven : Given earlier given)
    (claims : List (String × String)) :
    (claimAll unique claims).Nodup ∧ (∀ name ∈ claimAll unique claims, name ∉ given) ↔
      NumbersFree earlier (claimedBases claims) := by
  induction claims generalizing unique earlier given with
  | nil => simp [claimAll, claimedBases, NumbersFree]
  | cons claim claims ih =>
    obtain ⟨wanted, fallback⟩ := claim
    have hbases : claimedBases ((wanted, fallback) :: claims) =
        claimedBase wanted fallback :: claimedBases claims := rfl
    have hnext := hcounts.claim wanted fallback
    have hname := UniqueNames.claim_snd hcounts wanted fallback
    rw [hbases, NumbersFree]
    simp only [claimAll, List.nodup_cons, List.forall_mem_cons]
    generalize hclaimed : unique.claim wanted fallback = claimed at hnext hname ⊢
    generalize claimedBase wanted fallback = base at hnext hname ⊢
    have hrest {last : String} (hlast : Given (base :: earlier) (last :: given)) :
        (last ∉ claimAll claimed.1 claims ∧ (claimAll claimed.1 claims).Nodup) ∧
          (∀ name ∈ claimAll claimed.1 claims, name ∉ given) ↔
        NumbersFree (base :: earlier) (claimedBases claims) := by
      rw [← ih hnext hlast]
      simp only [List.mem_cons, not_or]
      constructor
      · rintro ⟨⟨hlast, hnodup⟩, hgiven⟩
        exact ⟨hnodup, fun name hmem ↦ ⟨fun heq ↦ hlast (heq ▸ hmem), hgiven name hmem⟩⟩
      · rintro ⟨hnodup, hapart⟩
        exact ⟨⟨fun hmem ↦ (hapart _ hmem).1 rfl, hnodup⟩, fun name hmem ↦ (hapart name hmem).2⟩
    rcases (runningNumber_pos earlier base).eq_or_lt with hfirst | hagain
    · rw [if_pos hfirst.symm] at hname
      obtain ⟨hfresh, hgrown⟩ := hgiven.first hfirst.symm
      have hnew : ¬1 < runningNumber earlier base := by omega
      rw [hname]
      simp only [hfresh, not_false_eq_true, true_and, hnew, false_imp_iff]
      exact hrest hgrown
    · rw [if_neg (by omega)] at hname
      obtain ⟨hfresh, hgrown⟩ := hgiven.again hagain
      rw [hname, ← hrest hgrown, hfresh]
      simp only [hagain, true_imp_iff]
      tauto

/-! ## Distinct names -/

/-- The names that one `UniqueNames` gives are distinct exactly as long as no claim is numbered into
a name that an earlier claim asked for. -/
theorem claimAll_nodup (claims : List (String × String)) :
    (claimAll .new claims).Nodup ↔ NumbersFree [] (claimedBases claims) := by
  have hcounts : UniqueNames.new.Counts [] := fun _ ↦ rfl
  rw [← claimAll_apart hcounts Given.nil claims]
  simp

/-- The second item named like the numbered one is not kept apart from it. -/
theorem claimAll_repeats :
    ¬∀ claims : List (String × String), (claimAll .new claims).Nodup := by
  intro hall
  have hnodup := hall [("Local (2)", "Channel"), ("Local", "Channel"), ("Local", "Channel")]
  revert hnodup
  decide

end Sdrmm.Cps
