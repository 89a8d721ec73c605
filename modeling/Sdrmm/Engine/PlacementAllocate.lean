import Sdrmm.Engine.PlacementReach

/-!
# The allocator is optimal and honest

Without a limit `allocate` receives the optimum and says so (`allocate_optimal`).  With any limit,
wherever the budget runs out, it returns an assignment, reports what that receives, and brackets the
optimum (`allocate_honest`).
-/

namespace Sdrmm.Allocator

open Planning

variable {decoders : List Placeable} {radios : List Radio}

/-! ## Candidates -/

/-- An assignment with the number of channels it receives. -/
structure Candidate (decoders : List Placeable) (radios : List Radio)
    (candidate : List Placement × ℕ) : Prop where
  assigns : Assigns radios decoders candidate.1
  heard_eq : candidate.2 = received decoders radios candidate.1

theorem Candidate.le_optimum {candidate : List Placement × ℕ}
    (hcandidate : Candidate decoders radios candidate) :
    candidate.2 ≤ optimum decoders radios := by
  rw [hcandidate.heard_eq]
  exact received_le_optimum hcandidate.assigns

theorem Candidate.improve {current : List Placement × ℕ} {candidate : List Placement}
    (hcurrent : Candidate decoders radios current) (hassigns : Assigns radios decoders candidate) :
    Candidate decoders radios (improve decoders radios current candidate) ∧
      current.2 ≤ (improve decoders radios current candidate).2 ∧
      received decoders radios candidate ≤ (improve decoders radios current candidate).2 := by
  simp only [Allocator.improve]
  split_ifs with hbetter
  · exact ⟨⟨hassigns, rfl⟩, hbetter.le, le_rfl⟩
  · exact ⟨hcurrent, le_rfl, not_lt.mp hbetter⟩

theorem optimum_le_total (hdistinct : Distinct decoders radios) :
    optimum decoders radios ≤ totalOf decoders radios :=
  optimum_le fun _ hassigns ↦ received_le_total hdistinct hassigns

/-! ## The stages of an allocation -/

section Stages

variable (decoders radios)

def preferred : List Placement × ℕ :=
  (fallbackPlacements decoders radios,
    received decoders radios (fallbackPlacements decoders radios))

variable (model : Model (totalOf decoders radios)) (budget : Budget)

def afterGreedy : List Placement × ℕ :=
  improve decoders radios (preferred decoders radios)
    (project decoders radios model (model.greedy decoders))

def searched : Search := Search.run model.domains (afterGreedy decoders radios model).2 budget

def afterSearch : List Placement × ℕ :=
  match (searched decoders radios model budget).chosen with
  | none => afterGreedy decoders radios model
  | some chosen => improve decoders radios (afterGreedy decoders radios model)
      (project decoders radios model chosen)

/-- An allocation in terms of its stages: all is heard, the model did not get done, or it did. -/
theorem allocate_eq (next : Neighbours) (limits : Limits) :
    allocate next decoders radios limits =
      if (preferred decoders radios).2 = totalOf decoders radios then
        ⟨(preferred decoders radios).1, coverageOf (preferred decoders radios).2
          (preferred decoders radios).2⟩
      else
        match Model.new next decoders radios (Budget.new limits) with
        | none => ⟨(preferred decoders radios).1, coverageOf (preferred decoders radios).2
            (totalOf decoders radios)⟩
        | some (model, budget) =>
            ⟨(afterSearch decoders radios model budget).1,
              coverageOf (afterSearch decoders radios model budget).2
                (if (afterSearch decoders radios model budget).2 >
                  (searched decoders radios model budget).upperBound then totalOf decoders radios
                else (searched decoders radios model budget).upperBound)⟩ := rfl

theorem preferred_candidate : Candidate decoders radios (preferred decoders radios) :=
  ⟨fallbackPlacements_assigns decoders radios, rfl⟩

variable {decoders radios model}

theorem afterGreedy_candidate
    (hlanes : model.lanes = decoders.map fun decoder ↦ usable decoder radios) :
    Candidate decoders radios (afterGreedy decoders radios model) :=
  ((preferred_candidate decoders radios).improve (project_assigns hlanes _)).1

theorem afterSearch_candidate
    (hlanes : model.lanes = decoders.map fun decoder ↦ usable decoder radios) (budget : Budget) :
    Candidate decoders radios (afterSearch decoders radios model budget) := by
  rw [afterSearch]
  split
  · exact afterGreedy_candidate hlanes
  · exact ((afterGreedy_candidate hlanes).improve (project_assigns hlanes _)).1

/-- Whatever the budget, the optimum does not exceed the upper bound of the search. -/
theorem optimum_le_upperBound (hdistinct : Distinct decoders radios) (htunes : Tunes radios)
    {order : List Site} (hmodels : Models decoders radios model order) (budget : Budget) :
    optimum decoders radios ≤ (searched decoders radios model budget).upperBound := by
  rcases Search.run_upperBound model.domains (afterGreedy decoders radios model).2 budget with
    hreach | htotal
  · exact (optimum_le fun _ hassigns ↦
      received_le_reach hdistinct htunes hmodels hassigns).trans hreach
  · rw [searched, htotal]
    exact optimum_le_total hdistinct

/-- Without a limit the search ends at the optimum and its choice receives it. -/
theorem searched_unlimited (hdistinct : Distinct decoders radios) (htunes : Tunes radios)
    {order : List Site} (hmodels : Models decoders radios model order) {budget : Budget}
    (hunlimited : budget.limits.Unlimited) :
    (searched decoders radios model budget).upperBound = optimum decoders radios ∧
      (afterSearch decoders radios model budget).2 = optimum decoders radios := by
  have hgreedy := afterGreedy_candidate hmodels.lanes_eq
  have hcandidate := afterSearch_candidate hmodels.lanes_eq budget
  have hupper := optimum_le_upperBound hdistinct htunes hmodels budget
  -- What was found before the search cannot exceed the root's bound.
  have hroot : (afterGreedy decoders radios model).2 ≤
      Search.bound model.domains (Coverage.empty _) := by
    rw [hgreedy.heard_eq]
    refine (received_le_reach hdistinct htunes hmodels hgreedy.assigns).trans ?_
    rw [← Coverage.bits_empty]
    exact Search.bound_covers _ _
  obtain ⟨hmeet, hkept⟩ := Search.run_complete hunlimited hroot
  change (searched decoders radios model budget).upperBound =
    (searched decoders radios model budget).best at hmeet
  have hbest : (searched decoders radios model budget).best ≤
      (afterSearch decoders radios model budget).2 := by
    rw [afterSearch]
    split
    case h_1 hnone => exact (hkept hnone).le
    case h_2 chosen hchosen =>
      obtain ⟨hselects, -, hcard⟩ := Search.run_chosen hchosen
      change (searched decoders radios model budget).best = _ at hcard
      rw [hcard]
      exact (card_le_received hdistinct htunes hmodels hselects).trans
        (hgreedy.improve (project_assigns hmodels.lanes_eq chosen)).2.2
  have hle := hcandidate.le_optimum
  exact ⟨by omega, by omega⟩

end Stages

/-! ## Allocation -/

/-- A decoder of a bare carrier. -/
def carrier (frequencyHz : ℚ) : ChannelSettings := ⟨frequencyHz, ⟨(0, 0), none⟩⟩

/-- A freely tuning radio at 100 Hz. -/
def receiver (deviceSet : ℕ) (ranges : List Range) (rate : ℚ) : Radio where
  deviceSet := deviceSet
  capabilities := ⟨ranges, 1, ⟨false⟩⟩
  settings := ⟨some 100, none, some rate, []⟩
  tunesFreely := true
  fixed := []

def receivers (ranges : List Range) (rate : ℚ) : List Radio :=
  [receiver 0 ranges rate, receiver 1 [] 10]

/-- Two carriers too far apart for one radio, one of which can use either radio. -/
def carriers : List Placeable :=
  [⟨"a", carrier 100, [⟨1, 0⟩, ⟨0, 0⟩], none, false⟩, ⟨"b", carrier 400, [⟨1, 0⟩], none, false⟩]

def adjacent : Neighbours := ⟨fun hz ↦ hz + 1 / 2 ^ 44, fun hz ↦ hz - 1 / 2 ^ 44⟩

def unlimited : Limits := ⟨⊤, fun _ ↦ false⟩

theorem unlimited_spec : unlimited.Unlimited := ⟨rfl, fun _ ↦ rfl⟩

theorem carriers_distinct (ranges : List Range) (rate : ℚ) :
    Distinct carriers (receivers ranges rate) where
  nodes := by decide
  sets := by simp [receivers, receiver]
  streams := by simp [receivers, receiver]

theorem receivers_tune : Tunes (receivers [⟨50, 150⟩] 10) := by
  intro radio hradio _
  simp only [receivers, List.mem_cons, List.not_mem_nil, or_false] at hradio
  rcases hradio with rfl | rfl
  · exact ⟨by decide, .inr ⟨⟨50, 150⟩, List.mem_singleton_self _, by decide⟩⟩
  · exact ⟨by decide, .inl rfl⟩

/-- Without a limit the optimum is received and reported. -/
theorem allocate_optimal (next : Neighbours) {limits : Limits}
    (hdistinct : Distinct decoders radios) (htunes : Tunes radios)
    (hunlimited : limits.Unlimited) :
    received decoders radios (allocate next decoders radios limits).placements =
        optimum decoders radios ∧
      (allocate next decoders radios limits).coverage =
        ⟨optimum decoders radios, optimum decoders radios⟩ := by
  have hpreferred := preferred_candidate decoders radios
  rw [allocate_eq]
  split_ifs with hall
  · have hoptimum : (preferred decoders radios).2 = optimum decoders radios :=
      le_antisymm hpreferred.le_optimum ((optimum_le_total hdistinct).trans hall.ge)
    refine ⟨hpreferred.heard_eq.symm.trans hoptimum, ?_⟩
    rw [coverageOf, Nat.max_self, hoptimum]
  · have hbudget : (Budget.new limits).limits.Unlimited := hunlimited
    obtain ⟨model, budget, hnew, hlimits⟩ := Model.new_unlimited next decoders hbudget radios
    obtain ⟨hlanes, order, hperm, hfits⟩ := Model.new_spec hnew
    obtain ⟨hupper, hheard⟩ := searched_unlimited hdistinct htunes ⟨hlanes, hperm, hfits⟩
      (hlimits ▸ hbudget : budget.limits.Unlimited)
    have hcandidate := afterSearch_candidate hlanes budget
    rw [hnew]
    refine ⟨hcandidate.heard_eq.symm.trans hheard, ?_⟩
    simp only [hupper, hheard, gt_iff_lt, lt_irrefl, if_false, coverageOf, Nat.max_self]

theorem allocate_optimal_carriers :
    received carriers (receivers [⟨50, 150⟩] 10)
        (allocate adjacent carriers (receivers [⟨50, 150⟩] 10) unlimited).placements =
        optimum carriers (receivers [⟨50, 150⟩] 10) ∧
      (allocate adjacent carriers (receivers [⟨50, 150⟩] 10) unlimited).coverage =
        ⟨optimum carriers (receivers [⟨50, 150⟩] 10),
          optimum carriers (receivers [⟨50, 150⟩] 10)⟩ :=
  allocate_optimal adjacent (carriers_distinct _ _) receivers_tune unlimited_spec

/-- Radios that are not tunable can make the allocator miss the optimum: one whose only range is
reversed, and one that samples at no rate. -/
theorem allocate_misses_optimum :
    (Distinct carriers (receivers [⟨1, 0⟩] 10) ∧ unlimited.Unlimited ∧
      received carriers (receivers [⟨1, 0⟩] 10)
        (allocate adjacent carriers (receivers [⟨1, 0⟩] 10) unlimited).placements = 1 ∧
      optimum carriers (receivers [⟨1, 0⟩] 10) = 2) ∧
    Distinct carriers (receivers [⟨500, 600⟩] 0) ∧ unlimited.Unlimited ∧
      received carriers (receivers [⟨500, 600⟩] 0)
        (allocate adjacent carriers (receivers [⟨500, 600⟩] 0) unlimited).placements = 1 ∧
      optimum carriers (receivers [⟨500, 600⟩] 0) = 2 :=
  ⟨⟨carriers_distinct _ _, unlimited_spec, by decide +kernel, by decide +kernel⟩,
    carriers_distinct _ _, unlimited_spec, by decide +kernel, by decide +kernel⟩

/-- Wherever the budget runs out, the placements are an assignment, what is reported is what they
receive, and the optimum lies between the two numbers. -/
theorem allocate_honest (next : Neighbours) (limits : Limits)
    (hdistinct : Distinct decoders radios) :
    List.Forall₂ (fun decoder placement ↦ placement.node = decoder.node ∧
        placement.lane ∈ usable decoder radios ∧
        ∀ held ∈ presentLanes decoder radios, decoder.pinned = true → decoder.held = some held →
          placement.lane = held)
      (decoders.filter fun decoder ↦ usable decoder radios ≠ [])
      (allocate next decoders radios limits).placements ∧
    (allocate next decoders radios limits).coverage.heard =
      received decoders radios (allocate next decoders radios limits).placements ∧
    (allocate next decoders radios limits).coverage.heard ≤ optimum decoders radios ∧
    (Tunes radios →
      optimum decoders radios ≤ (allocate next decoders radios limits).coverage.upperBound) := by
  have hcandidate : Candidate decoders radios ((allocate next decoders radios limits).placements,
      (allocate next decoders radios limits).coverage.heard) := by
    rw [allocate_eq]
    split_ifs
    · exact preferred_candidate decoders radios
    · split
      case h_1 => exact preferred_candidate decoders radios
      case h_2 model budget hnew =>
        exact afterSearch_candidate (Model.new_spec hnew).1 budget
  refine ⟨hcandidate.assigns.imp ?_, hcandidate.heard_eq, hcandidate.le_optimum, ?_⟩
  · intro decoder placement hplaces
    refine ⟨hplaces.node_eq, hplaces.usable, ?_⟩
    intro held hpresent hpinned hheld
    have honly : usable decoder radios = [held] := by
      simp only [usable, hheld, hpinned, hpresent, and_self, if_true]
    exact List.mem_singleton.mp (honly ▸ hplaces.usable)
  · intro htunes
    rw [allocate_eq]
    split_ifs with hall
    · exact ((optimum_le_total hdistinct).trans hall.ge).trans (le_max_right _ _)
    · split
      case h_1 => exact (optimum_le_total hdistinct).trans (le_max_left _ _)
      case h_2 model budget hnew =>
        obtain ⟨hlanes, order, hperm, hfits⟩ := Model.new_spec hnew
        refine le_trans ?_ (le_max_left _ _)
        split_ifs
        · exact optimum_le_total hdistinct
        · exact optimum_le_upperBound hdistinct htunes ⟨hlanes, hperm, hfits⟩ budget

theorem allocate_honest_carriers :
    let allocation := allocate adjacent carriers (receivers [⟨50, 150⟩] 10) ⟨3, fun _ ↦ false⟩
    allocation.coverage.heard =
        received carriers (receivers [⟨50, 150⟩] 10) allocation.placements ∧
      allocation.coverage.heard ≤ optimum carriers (receivers [⟨50, 150⟩] 10) ∧
      optimum carriers (receivers [⟨50, 150⟩] 10) ≤ allocation.coverage.upperBound := by
  obtain ⟨-, hheard, hle, hbound⟩ := allocate_honest adjacent ⟨3, fun _ ↦ false⟩
    (carriers_distinct [⟨50, 150⟩] 10)
  exact ⟨hheard, hle, hbound receivers_tune⟩

/-- With a radio that is not tunable the upper bound can be too low. -/
theorem allocate_bound_too_low :
    (Distinct carriers (receivers [⟨1, 0⟩] 10) ∧
      (allocate adjacent carriers (receivers [⟨1, 0⟩] 10)
        unlimited).coverage.upperBound = 1 ∧
      optimum carriers (receivers [⟨1, 0⟩] 10) = 2) ∧
    Distinct carriers (receivers [⟨500, 600⟩] 0) ∧
      (allocate adjacent carriers (receivers [⟨500, 600⟩] 0)
        unlimited).coverage.upperBound = 1 ∧
      optimum carriers (receivers [⟨500, 600⟩] 0) = 2 :=
  ⟨⟨carriers_distinct _ _, by decide +kernel, by decide +kernel⟩,
    carriers_distinct _ _, by decide +kernel, by decide +kernel⟩

end Sdrmm.Allocator
