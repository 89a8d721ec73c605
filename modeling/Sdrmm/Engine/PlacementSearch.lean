import Sdrmm.Engine.Placement
import Sdrmm.Lib.Cover

/-!
# What the search finds

`Search.visit` walks the choices of one option per domain, cutting off whatever its bound shows to
be no better than the best so far.  `bound_covers` is that the bound never falls below what a
subtree holds, and `visit_spec` what a visit leaves behind: a better choice if it changed anything,
and, unless the budget ran out, nothing better left in the subtree.  `run_spec` and `run_complete`
say the same of a whole run.
-/

namespace Sdrmm.Allocator

namespace Limits

/-- A budget that never expires. -/
structure Unlimited (limits : Limits) : Prop where
  nodes_eq : limits.nodes = ⊤
  elapsed_eq : ∀ check, limits.elapsed check = false

end Limits

theorem Budget.expired_unlimited {budget : Budget} (hunlimited : budget.limits.Unlimited) :
    budget.expired = false := by
  rw [Budget.expired, hunlimited.nodes_eq, hunlimited.elapsed_eq, Bool.or_false,
    decide_eq_false_iff_not]
  simp

theorem Budget.survive_unlimited {budget : Budget} (hunlimited : budget.limits.Unlimited)
    (count : ℕ) : ∃ after, budget.survive count = some after ∧ after.limits = budget.limits := by
  induction count generalizing budget with
  | zero => exact ⟨budget, rfl, rfl⟩
  | succ count ih =>
    rw [Budget.survive, Budget.expired_unlimited hunlimited]
    simp only [Bool.false_eq_true, if_false]
    exact ih hunlimited

namespace Search

variable {total : ℕ}

/-- The options of each domain as sets. -/
def families (domains : List (Domain total)) : List (List (Finset ℕ)) :=
  domains.map fun domain ↦ domain.options.map Coverage.bits

def optionAt (domain : Domain total) (index : ℕ) : Coverage total :=
  domain.options.getD index (Coverage.empty total)

/-- The sets that a list of option numbers picks. -/
def picked (domains : List (Domain total)) (picks : List ℕ) : List (Finset ℕ) :=
  List.zipWith (fun domain index ↦ (optionAt domain index).bits) domains picks

/-- One option number per domain. -/
def Selects (domains : List (Domain total)) (picks : List ℕ) : Prop :=
  List.Forall₂ (fun domain index ↦ index < domain.options.length) domains picks

theorem optionAt_mem {domain : Domain total} {index : ℕ} (hindex : index < domain.options.length) :
    optionAt domain index ∈ domain.options := by
  rw [optionAt, List.getD_eq_getElem?_getD, List.getElem?_eq_getElem hindex, Option.getD_some]
  exact List.getElem_mem hindex

theorem picked_mem_families {domains : List (Domain total)} {picks : List ℕ}
    (hselects : Selects domains picks) :
    List.Forall₂ (· ∈ ·) (picked domains picks) (families domains) := by
  induction hselects with
  | nil => exact .nil
  | cons hindex _ ih => exact .cons (List.mem_map_of_mem (optionAt_mem hindex)) ih

/-! ## The bound -/

theorem bits_fold_union (options : List (Coverage total)) (all : Coverage total) :
    (options.foldl Coverage.union all).bits = all.bits ∪ Cover.union (options.map Coverage.bits) := by
  induction options generalizing all with
  | nil => simp [Cover.union]
  | cons option options ih =>
    rw [List.foldl_cons, ih, Coverage.bits_union, Finset.union_assoc]
    rfl

theorem bits_suffix (domains : List (Domain total)) :
    (suffix domains).bits = Cover.union (families domains).flatten := by
  induction domains with
  | nil => exact Coverage.bits_empty
  | cons domain domains ih =>
    have hsuffix : suffix (domain :: domains) =
        domain.options.foldl Coverage.union (suffix domains) := rfl
    rw [hsuffix, bits_fold_union, ih]
    ext bit
    simp only [families, List.map_cons, List.flatten_cons, Finset.mem_union, Cover.mem_union,
      List.mem_append, or_and_right, exists_or]
    exact or_comm

theorem sum_gain (domains : List (Domain total)) (covered : Coverage total) :
    (domains.map fun domain ↦
      (domain.options.map fun option ↦ option.gain covered).foldr max 0).sum =
      Cover.gains (families domains) covered.bits := by
  simp only [Cover.gains, families, Cover.greatest, List.map_map, Function.comp_def,
    Coverage.gain_eq_card]

/-- Nothing below a node beats its bound. -/
theorem bound_covers (domains : List (Domain total)) (covered : Coverage total) :
    Cover.reach (families domains) covered.bits ≤ bound domains covered := by
  refine le_min ?_ ?_
  · rw [Coverage.count_eq_card, Coverage.bits_union, bits_suffix]
    exact Cover.reach_le_union _ _
  · rw [Coverage.count_eq_card, sum_gain]
    exact Cover.reach_le_gains _ _

/-! ## One visit -/

/-- What may change in the best so far: nothing, or it is a better choice that begins with what is
chosen already. -/
structure Improves (domains : List (Domain total)) (covered : Coverage total) (chosen : List ℕ)
    (before after : Search) : Prop where
  upperBound_eq : after.upperBound = before.upperBound
  best : after.best = before.best ∧ after.chosen = before.chosen ∨
    before.best < after.best ∧ ∃ picks, after.chosen = some (chosen ++ picks) ∧
      Selects domains picks ∧
      after.best = (covered.bits ∪ Cover.union (picked domains picks)).card

variable {domains : List (Domain total)} {covered : Coverage total} {chosen : List ℕ}
  {before middle after : Search}

theorem Improves.le (himproves : Improves domains covered chosen before after) :
    before.best ≤ after.best := by
  rcases himproves.best with ⟨hsame, -⟩ | ⟨hlt, -⟩
  · exact hsame.ge
  · exact hlt.le

theorem Improves.trans (hfirst : Improves domains covered chosen before middle)
    (hsecond : Improves domains covered chosen middle after) :
    Improves domains covered chosen before after where
  upperBound_eq := hsecond.upperBound_eq.trans hfirst.upperBound_eq
  best := by
    rcases hsecond.best with ⟨hsame, hchosen⟩ | ⟨hlt, hpicks⟩
    · rw [hsame, hchosen]
      exact hfirst.best
    · exact .inr ⟨hfirst.le.trans_lt hlt, hpicks⟩

/-- An improvement below an option is one below its domain. -/
theorem Improves.below {domain : Domain total} {index : ℕ}
    (hindex : index < domain.options.length)
    (himproves : Improves domains ((optionAt domain index).union covered) (chosen ++ [index])
      before after) : Improves (domain :: domains) covered chosen before after where
  upperBound_eq := himproves.upperBound_eq
  best := by
    rcases himproves.best with hsame | ⟨hlt, picks, hchosen, hselects, hbest⟩
    · exact .inl hsame
    · refine .inr ⟨hlt, index :: picks, ?_, .cons hindex hselects, ?_⟩
      · rw [hchosen, List.append_assoc]
        rfl
      · rw [hbest, Coverage.bits_union, Finset.union_comm _ covered.bits, Finset.union_assoc]
        rfl

theorem branchOrder_perm (domain : Domain total) (covered : Coverage total) :
    (branchOrder domain covered).Perm (List.range domain.options.length) :=
  List.perm_insertionSort _ _

theorem mem_branchOrder {domain : Domain total} {index : ℕ} :
    index ∈ branchOrder domain covered ↔ index < domain.options.length := by
  rw [(branchOrder_perm domain covered).mem_iff, List.mem_range]

/-- What one visit of a subtree guarantees. -/
structure Visited (domains : List (Domain total)) (covered : Coverage total) (chosen : List ℕ)
    (before after : Search) : Prop extends Improves domains covered chosen before after where
  complete : after.interrupted = false →
    Cover.reach (families domains) covered.bits ≤ after.best ∨ after.upperBound ≤ after.best

/-- One round of the loop over the options of a domain. -/
def branch (domain : Domain total) (domains : List (Domain total)) (covered : Coverage total)
    (chosen : List ℕ) (search : Search) (index : ℕ) : Search :=
  if search.interrupted ∨ search.upperBound ≤ search.best then search
  else visit domains ((optionAt domain index).union covered) (chosen ++ [index]) search

/-- A budget step changes nothing that a visit is judged by. -/
theorem Visited.of_budget {budget : Budget}
    (hvisited : Visited domains covered chosen { before with budget := budget } after) :
    Visited domains covered chosen before after where
  upperBound_eq := hvisited.upperBound_eq
  best := hvisited.best
  complete := hvisited.complete

theorem visit_cons (domain : Domain total) (search : Search) :
    visit (domain :: domains) covered chosen search =
      if bound (domain :: domains) covered ≤ search.best then search
      else if search.budget.expired then { search with interrupted := true }
      else (branchOrder domain covered).foldl (branch domain domains covered chosen)
        { search with
          budget := { search.budget with
            nodes := search.budget.nodes + 1, checks := search.budget.checks + 1 } } := by
  rw [visit]
  rfl

/-- The loop over the options, given what the visits below it guarantee. -/
theorem branch_fold_spec {domain : Domain total} (covered : Coverage total) (chosen : List ℕ)
    (hvisit : ∀ covered chosen search,
      Visited domains covered chosen search (visit domains covered chosen search))
    (order : List ℕ) (horder : ∀ index ∈ order, index < domain.options.length) (search : Search) :
    let result := order.foldl (branch domain domains covered chosen) search
    Improves (domain :: domains) covered chosen search result ∧
      (search.interrupted = true → result.interrupted = true) ∧
      (result.interrupted = false → result.upperBound ≤ result.best ∨ ∀ index ∈ order,
        Cover.reach (families domains) ((optionAt domain index).bits ∪ covered.bits) ≤
          result.best) := by
  induction order generalizing search with
  | nil => exact ⟨⟨rfl, .inl ⟨rfl, rfl⟩⟩, id, fun _ ↦ .inr (by simp)⟩
  | cons index order ih =>
    rw [List.foldl_cons]
    have hrest := ih fun other hmem ↦ horder other (List.mem_cons_of_mem index hmem)
    have hindex := horder index List.mem_cons_self
    by_cases hstop : search.interrupted ∨ search.upperBound ≤ search.best
    · rw [branch, if_pos hstop]
      obtain ⟨himproves, hinterrupted, -⟩ := hrest search
      refine ⟨himproves, hinterrupted, ?_⟩
      intro hcomplete
      rcases hstop with hstop | hstop
      · rw [hinterrupted hstop] at hcomplete
        exact absurd hcomplete (by decide)
      · left
        rw [himproves.upperBound_eq]
        exact hstop.trans himproves.le
    · have hstep : branch domain domains covered chosen search index =
          visit domains ((optionAt domain index).union covered) (chosen ++ [index]) search :=
        if_neg hstop
      have hbelow := hvisit ((optionAt domain index).union covered) (chosen ++ [index]) search
      rw [← hstep] at hbelow
      obtain ⟨himproves, hinterrupted, hcomplete⟩ :=
        hrest (branch domain domains covered chosen search index)
      refine ⟨(hbelow.toImproves.below hindex).trans himproves, ?_, ?_⟩
      · intro hbefore
        exact absurd (Or.inl hbefore) hstop
      · intro hdone
        rcases hcomplete hdone with hmet | hothers
        · exact .inl hmet
        have hfirst : (branch domain domains covered chosen search index).interrupted = false := by
          by_contra hne
          rw [hinterrupted (by simpa using hne)] at hdone
          exact absurd hdone (by decide)
        rcases hbelow.complete hfirst with hreached | hmet
        · right
          intro other hother
          rcases List.mem_cons.mp hother with rfl | hother
          · rw [Coverage.bits_union] at hreached
            exact hreached.trans himproves.le
          · exact hothers other hother
        · left
          rw [himproves.upperBound_eq]
          exact hmet.trans himproves.le

theorem visit_spec (domains : List (Domain total)) (covered : Coverage total) (chosen : List ℕ)
    (search : Search) :
    Visited domains covered chosen search (visit domains covered chosen search) := by
  induction domains generalizing covered chosen search with
  | nil =>
    have hcovers := bound_covers [] covered
    rw [visit]
    split_ifs with hcut hexpired
    · exact ⟨⟨rfl, .inl ⟨rfl, rfl⟩⟩, fun _ ↦ .inl (hcovers.trans hcut)⟩
    · exact ⟨⟨rfl, .inl ⟨rfl, rfl⟩⟩, fun hdone ↦ absurd hdone (by simp)⟩
    · have hcount : covered.count = covered.bits.card := Coverage.count_eq_card covered
      have hbound : bound [] covered ≤ covered.count := by
        refine (min_le_right _ _).trans ?_
        simp
      refine ⟨⟨rfl, .inr ⟨(not_le.mp hcut).trans_le hbound, [], ?_, .nil, ?_⟩⟩, fun _ ↦ .inl ?_⟩
      · simp
      · simp [picked, Cover.union, hcount]
      · exact hcount.ge
  | cons domain domains ih =>
    rw [visit_cons]
    split_ifs with hcut hexpired
    · exact ⟨⟨rfl, .inl ⟨rfl, rfl⟩⟩, fun _ ↦ .inl ((bound_covers _ covered).trans hcut)⟩
    · exact ⟨⟨rfl, .inl ⟨rfl, rfl⟩⟩, fun hdone ↦ absurd hdone (by simp)⟩
    · obtain ⟨himproves, -, hcomplete⟩ := branch_fold_spec covered chosen ih
        (branchOrder domain covered) (fun index hmem ↦ mem_branchOrder.mp hmem)
        { search with
          budget := { search.budget with
            nodes := search.budget.nodes + 1, checks := search.budget.checks + 1 } }
      refine Visited.of_budget ⟨himproves, ?_⟩
      intro hdone
      rcases hcomplete hdone with hmet | hall
      · exact .inr hmet
      · left
        refine Cover.greatest_le ?_
        intro value hvalue
        rw [List.map_map] at hvalue
        obtain ⟨option, hoption, rfl⟩ := List.mem_map.mp hvalue
        obtain ⟨index, hindex, rfl⟩ := List.mem_iff_getElem.mp hoption
        have hreached := hall index (mem_branchOrder.mpr hindex)
        rwa [optionAt, List.getD_eq_getElem?_getD, List.getElem?_eq_getElem hindex,
          Option.getD_some] at hreached

/-! ## A whole run -/

/-- A run that starts at a best no greater than the root's bound. -/
theorem run_eq {best : ℕ} {budget : Budget}
    (hroot : best ≤ bound domains (Coverage.empty total)) :
    run domains best budget =
      let search := visit domains (Coverage.empty total) []
        ⟨best, none, bound domains (Coverage.empty total), budget, false⟩
      if search.interrupted then search else { search with upperBound := search.best } := by
  rw [run]
  exact if_neg hroot.not_gt

theorem reach_le_upperBound {best : ℕ} {budget : Budget}
    (hroot : best ≤ bound domains (Coverage.empty total)) :
    Cover.reach (families domains) ∅ ≤ (run domains best budget).upperBound := by
  have hcovers := bound_covers domains (Coverage.empty total)
  have hvisited := visit_spec domains (Coverage.empty total) []
    ⟨best, none, bound domains (Coverage.empty total), budget, false⟩
  rw [Coverage.bits_empty] at hcovers
  rw [run_eq hroot]
  simp only
  split_ifs with hinterrupted
  · rw [hvisited.upperBound_eq]
    exact hcovers
  · rcases hvisited.complete (by simpa using hinterrupted) with hreached | hmet
    · rwa [Coverage.bits_empty] at hreached
    · rw [hvisited.upperBound_eq] at hmet
      exact hcovers.trans hmet

/-- Whatever the budget, the upper bound of a run is one. -/
theorem run_upperBound (domains : List (Domain total)) (best : ℕ) (budget : Budget) :
    Cover.reach (families domains) ∅ ≤ (run domains best budget).upperBound ∨
      (run domains best budget).upperBound = total := by
  by_cases hroot : best ≤ bound domains (Coverage.empty total)
  · exact .inl (reach_le_upperBound hroot)
  · right
    rw [run]
    exact congrArg Search.upperBound (if_pos (not_le.mp hroot))

/-- What a run chooses is a selection that beats the best it was given. -/
theorem run_chosen {best : ℕ} {budget : Budget} {picks : List ℕ}
    (hchosen : (run domains best budget).chosen = some picks) :
    Selects domains picks ∧ best < (Cover.union (picked domains picks)).card ∧
      (run domains best budget).best = (Cover.union (picked domains picks)).card := by
  by_cases hroot : best ≤ bound domains (Coverage.empty total)
  · have hvisited := visit_spec domains (Coverage.empty total) []
      ⟨best, none, bound domains (Coverage.empty total), budget, false⟩
    have hsame : (run domains best budget).chosen = (visit domains (Coverage.empty total) []
        ⟨best, none, bound domains (Coverage.empty total), budget, false⟩).chosen ∧
        (run domains best budget).best = (visit domains (Coverage.empty total) []
        ⟨best, none, bound domains (Coverage.empty total), budget, false⟩).best := by
      rw [run_eq hroot]
      simp only
      split_ifs <;> exact ⟨rfl, rfl⟩
    rw [hsame.1] at hchosen
    rw [hsame.2]
    rcases hvisited.best with ⟨-, hnone⟩ | ⟨hlt, others, hothers, hselects, hbest⟩
    · rw [hnone] at hchosen
      exact absurd hchosen (by simp)
    · rw [hothers, Option.some.injEq, List.nil_append] at hchosen
      rw [Coverage.bits_empty, Finset.empty_union, hchosen] at hbest
      rw [hchosen] at hselects
      exact ⟨hselects, hbest ▸ hlt, hbest⟩
  · rw [run, if_pos (not_le.mp hroot)] at hchosen
    exact absurd hchosen (by simp)

/-! ## Runs without a limit -/

theorem visit_unlimited (domains : List (Domain total)) (covered : Coverage total)
    (chosen : List ℕ) (search : Search) (hunlimited : search.budget.limits.Unlimited) :
    (visit domains covered chosen search).interrupted = search.interrupted ∧
      (visit domains covered chosen search).budget.limits = search.budget.limits := by
  induction domains generalizing covered chosen search with
  | nil =>
    have halive := Budget.expired_unlimited hunlimited
    rw [visit]
    split_ifs with hcut hexpired
    · exact ⟨rfl, rfl⟩
    · rw [halive] at hexpired
      exact absurd hexpired (by decide)
    · exact ⟨rfl, rfl⟩
  | cons domain domains ih =>
    have hloop : ∀ (order : List ℕ) (search : Search), search.budget.limits.Unlimited →
        (order.foldl (branch domain domains covered chosen) search).interrupted =
          search.interrupted ∧
        (order.foldl (branch domain domains covered chosen) search).budget.limits =
          search.budget.limits := by
      intro order
      induction order with
      | nil => exact fun _ _ ↦ ⟨rfl, rfl⟩
      | cons index order ihOrder =>
        intro search hunlimited
        have hstep : (branch domain domains covered chosen search index).interrupted =
            search.interrupted ∧
            (branch domain domains covered chosen search index).budget.limits =
              search.budget.limits := by
          rw [branch]
          split_ifs
          · exact ⟨rfl, rfl⟩
          · exact ih _ _ search hunlimited
        have hrest := ihOrder (branch domain domains covered chosen search index)
          (hstep.2 ▸ hunlimited)
        rw [List.foldl_cons, hrest.1, hrest.2]
        exact hstep
    have halive := Budget.expired_unlimited hunlimited
    rw [visit_cons]
    split_ifs with hcut hexpired
    · exact ⟨rfl, rfl⟩
    · rw [halive] at hexpired
      exact absurd hexpired (by decide)
    · exact hloop _ _ hunlimited

/-- Without a limit the best and the upper bound meet at or above everything there is to have. -/
theorem run_complete {best : ℕ} {budget : Budget} (hunlimited : budget.limits.Unlimited)
    (hroot : best ≤ bound domains (Coverage.empty total)) :
    (run domains best budget).upperBound = (run domains best budget).best ∧
      ((run domains best budget).chosen = none → (run domains best budget).best = best) := by
  have hvisited := visit_spec domains (Coverage.empty total) []
    ⟨best, none, bound domains (Coverage.empty total), budget, false⟩
  obtain ⟨halive, -⟩ := visit_unlimited domains (Coverage.empty total) []
    ⟨best, none, bound domains (Coverage.empty total), budget, false⟩ hunlimited
  rw [run_eq hroot]
  simp only [halive, Bool.false_eq_true, if_false]
  refine ⟨trivial, ?_⟩
  intro hnone
  rcases hvisited.best with ⟨hsame, -⟩ | ⟨-, picks, hsome, -⟩
  · exact hsame
  · rw [hnone] at hsome
    exact absurd hsome (by simp)

/-! ## The largest union -/

/-- A member of each family is what some option numbers pick. -/
theorem exists_picks {domains : List (Domain total)} {selection : List (Finset ℕ)}
    (hselection : List.Forall₂ (· ∈ ·) selection (families domains)) :
    ∃ picks, Selects domains picks ∧ picked domains picks = selection := by
  induction domains generalizing selection with
  | nil =>
    cases hselection
    exact ⟨[], .nil, rfl⟩
  | cons domain domains ih =>
    obtain ⟨member, rest, hmember, hrest, rfl⟩ := List.forall₂_cons_right_iff.mp hselection
    obtain ⟨option, hoption, rfl⟩ := List.mem_map.mp hmember
    obtain ⟨index, hindex, rfl⟩ := List.mem_iff_getElem.mp hoption
    obtain ⟨picks, hpicks, hpicked⟩ := ih hrest
    have hat : optionAt domain index = domain.options[index] := by
      rw [optionAt, List.getD_eq_getElem?_getD, List.getElem?_eq_getElem hindex, Option.getD_some]
    refine ⟨index :: picks, .cons hindex hpicks, ?_⟩
    rw [picked, List.zipWith_cons_cons, hat, ← picked, hpicked]

/-- The sizes of the unions of one option per domain. -/
def unionSizes (domains : List (Domain total)) : Set ℕ :=
  {size | ∃ picks, Selects domains picks ∧ (Cover.union (picked domains picks)).card = size}

theorem reach_isGreatest {domains : List (Domain total)} (hoptions : ∀ domain ∈ domains, domain.options ≠ []) :
    IsGreatest (unionSizes domains) (Cover.reach (families domains) ∅) := by
  constructor
  · have hfamilies : ∀ family ∈ families domains, family ≠ [] := by
      intro family hfamily
      obtain ⟨domain, hdomain, rfl⟩ := List.mem_map.mp hfamily
      rw [ne_eq, List.map_eq_nil_iff]
      exact hoptions domain hdomain
    obtain ⟨selection, hselection, hcard⟩ := Cover.exists_card_eq_reach hfamilies ∅
    obtain ⟨picks, hpicks, hpicked⟩ := exists_picks hselection
    rw [Finset.empty_union, ← hpicked] at hcard
    exact ⟨picks, hpicks, hcard⟩
  · rintro size ⟨picks, hpicks, rfl⟩
    have hle := Cover.card_le_reach (picked_mem_families hpicks) ∅
    rwa [Finset.empty_union] at hle

/-- With a budget that never expires the search ends at the larger of what it was given and the largest union of
one option per domain, and chooses such a union exactly when it is larger. -/
theorem run_optimal {domains : List (Domain total)} {best : ℕ} {budget : Budget}
    (hoptions : ∀ domain ∈ domains, domain.options ≠ [])
    (hroot : best ≤ bound domains (Coverage.empty total)) (hunlimited : budget.limits.Unlimited) :
    ∃ largest, IsGreatest (unionSizes domains) largest ∧
      (run domains best budget).best = max best largest ∧
      (run domains best budget).upperBound = max best largest ∧
      ((run domains best budget).chosen.isSome ↔ best < largest) ∧
      ∀ picks, (run domains best budget).chosen = some picks →
        Selects domains picks ∧ (Cover.union (picked domains picks)).card = largest := by
  have hgreatest := reach_isGreatest hoptions
  obtain ⟨hmeet, hkept⟩ := run_complete hunlimited hroot
  have hreached : Cover.reach (families domains) ∅ ≤ (run domains best budget).best :=
    (reach_le_upperBound hroot).trans hmeet.le
  refine ⟨Cover.reach (families domains) ∅, hgreatest, ?_⟩
  rw [hmeet]
  cases hchosen : (run domains best budget).chosen with
  | none =>
    rw [hkept hchosen] at hreached ⊢
    have hmax := max_eq_left hreached
    exact ⟨hmax.symm, hmax.symm, by simpa using hreached, fun _ hpicks ↦ nomatch hpicks⟩
  | some picks =>
    obtain ⟨hselects, hlt, hbest⟩ := run_chosen hchosen
    have hsize : (Cover.union (picked domains picks)).card = Cover.reach (families domains) ∅ :=
      le_antisymm (hgreatest.2 ⟨picks, hselects, rfl⟩) (hbest ▸ hreached)
    rw [hsize] at hlt hbest
    have hmax := max_eq_right hlt.le
    refine ⟨hbest.trans hmax.symm, hbest.trans hmax.symm, by simpa using hlt, ?_⟩
    intro others hothers
    obtain rfl := Option.some.inj hothers
    exact ⟨hselects, hsize⟩

/-- Two domains over three channels: the first hears one of two, the second the middle one or the others. -/
def twoDomains : List (Domain 3) :=
  [⟨0, 0, [(Coverage.empty 3).insert 0, (Coverage.empty 3).insert 1]⟩,
    ⟨1, 0, [(Coverage.empty 3).insert 1, ((Coverage.empty 3).insert 0).insert 2]⟩]

theorem run_optimal_two :
    ∃ largest, IsGreatest (unionSizes twoDomains) largest ∧
      (run twoDomains 2 (Budget.new ⟨⊤, fun _ ↦ false⟩)).best = max 2 largest ∧
      (run twoDomains 2 (Budget.new ⟨⊤, fun _ ↦ false⟩)).upperBound = max 2 largest ∧
      ((run twoDomains 2 (Budget.new ⟨⊤, fun _ ↦ false⟩)).chosen.isSome ↔ 2 < largest) ∧
      ∀ picks, (run twoDomains 2 (Budget.new ⟨⊤, fun _ ↦ false⟩)).chosen = some picks →
        Selects twoDomains picks ∧ (Cover.union (picked twoDomains picks)).card = largest :=
  run_optimal (by decide) (by decide) ⟨rfl, fun _ ↦ rfl⟩

end Search

end Sdrmm.Allocator
