import Mathlib.Data.List.Basic
import Mathlib.Logic.Relation
import Mathlib.Tactic

/-!
# Cycle detection by depth-first walk

A walk that keeps the nodes it has finished and the nodes it is still inside of, both shared
between the roots it starts from.  It refuses the first node it meets twice on one branch.

With enough fuel the walk always answers, it succeeds exactly when no cycle can be reached from
the roots, and the node it names when it fails lies on a cycle.  What makes the shared list of
finished nodes sound is that each of them is accessible: every path out of it ends.
-/

namespace Sdrmm.Dfs

variable {α : Type*}

structure Marks (α : Type*) where
  settled : List α
  walking : List α

/-- Visit each target in turn, stopping at the first that does not succeed. -/
def visitAll (visit : α → Marks α → Option (Except α (Marks α))) :
    List α → Marks α → Option (Except α (Marks α))
  | [], marks => some (.ok marks)
  | target :: targets, marks =>
      match visit target marks with
      | some (.ok marks) => visitAll visit targets marks
      | stopped => stopped

/-- `none` is a walk that ran out of fuel. -/
def walk [DecidableEq α] (next : α → List α) : ℕ → α → Marks α → Option (Except α (Marks α))
  | 0, _, _ => none
  | fuel + 1, node, marks =>
      if node ∈ marks.settled then some (.ok marks)
      else if node ∈ marks.walking then some (.error node)
      else
        match visitAll (walk next fuel) (next node)
            { marks with walking := marks.walking ++ [node] } with
        | some (.ok marks) => some (.ok
            { settled := marks.settled ++ [node], walking := marks.walking.dropLast })
        | stopped => stopped

variable (next : α → List α)

def Edge (a b : α) : Prop := b ∈ next a

/-- Every path out of the node ends. -/
def Ends (a : α) : Prop := Acc (fun b a ↦ Edge next a b) a

/-- A cycle that a path from `a` runs into. -/
def ReachesCycle (a : α) : Prop :=
  ∃ c, Relation.ReflTransGen (Edge next) a c ∧ Relation.TransGen (Edge next) c c

variable {next}

theorem Ends.not_cycle {a : α} (hends : Ends next a) : ¬ Relation.TransGen (Edge next) a a := by
  induction hends with
  | intro a _ ih =>
    intro hcycle
    obtain ⟨b, hedge, hback⟩ := Relation.TransGen.head'_iff.mp hcycle
    exact ih b hedge (Relation.TransGen.tail' hback hedge)

theorem Ends.not_reachesCycle {a : α} (hends : Ends next a) : ¬ ReachesCycle next a := by
  rintro ⟨c, hpath, hcycle⟩
  have hc : Ends next c := by
    clear hcycle
    induction hpath with
    | refl => exact hends
    | tail _ hedge ih => exact ih.inv hedge
  exact hc.not_cycle hcycle

/-- What a successful visit of `targets` does: they are settled, nothing is unsettled, the branch
is the one it started from, and accessibility of the settled nodes is kept. -/
structure Settles (next : α → List α) (targets : List α) (before after : Marks α) : Prop where
  walking : after.walking = before.walking
  mono : ∀ a ∈ before.settled, a ∈ after.settled
  settled : ∀ a ∈ targets, a ∈ after.settled
  ends : (∀ a ∈ before.settled, Ends next a) → ∀ a ∈ after.settled, Ends next a

theorem visitAll_settles {visit : α → Marks α → Option (Except α (Marks α))}
    (hvisit : ∀ target before after, visit target before = some (.ok after) →
      Settles next [target] before after)
    (targets : List α) (before after : Marks α)
    (hall : visitAll visit targets before = some (.ok after)) :
    Settles next targets before after := by
  induction targets generalizing before with
  | nil =>
    obtain rfl : before = after := by simpa [visitAll] using hall
    exact ⟨rfl, fun _ h ↦ h, by simp, fun h ↦ h⟩
  | cons target targets ih =>
    rw [visitAll] at hall
    cases hfirst : visit target before with
    | none => simp [hfirst] at hall
    | some answer =>
      cases answer with
      | error c => simp [hfirst] at hall
      | ok between =>
        rw [hfirst] at hall
        have hhead := hvisit target before between hfirst
        have htail := ih between hall
        refine ⟨htail.walking.trans hhead.walking, ?_, ?_, ?_⟩
        · intro a ha
          exact htail.mono a (hhead.mono a ha)
        · intro a ha
          rcases List.mem_cons.mp ha with rfl | ha
          · exact htail.mono a (hhead.settled a (List.mem_singleton_self a))
          · exact htail.settled a ha
        · intro hends
          exact htail.ends (hhead.ends hends)

/-- The first failing visit of several, with the marks it began from. -/
theorem visitAll_error {visit : α → Marks α → Option (Except α (Marks α))}
    (hvisit : ∀ target before after, visit target before = some (.ok after) →
      Settles next [target] before after)
    {targets : List α} {before : Marks α} {c : α}
    (hall : visitAll visit targets before = some (.error c)) :
    ∃ target ∈ targets, ∃ marks, marks.walking = before.walking ∧
      visit target marks = some (.error c) := by
  induction targets generalizing before with
  | nil => simp [visitAll] at hall
  | cons target targets ih =>
    rw [visitAll] at hall
    cases hfirst : visit target before with
    | none => simp [hfirst] at hall
    | some answer =>
      cases answer with
      | error d =>
        obtain rfl : d = c := by simpa [hfirst] using hall
        exact ⟨target, List.mem_cons_self .., before, rfl, hfirst⟩
      | ok between =>
        rw [hfirst] at hall
        obtain ⟨later, hmem, marks, hmarks, hlater⟩ := ih hall
        exact ⟨later, List.mem_cons_of_mem _ hmem, marks,
          hmarks.trans (hvisit target before between hfirst).walking, hlater⟩

/-- Every node the walk is inside of leads to `node`, which `root` leads to. -/
structure Leads (next : α → List α) (root : α) (walking : List α) (node : α) : Prop where
  walked : ∀ a ∈ walking, Relation.TransGen (Edge next) a node
  reached : Relation.ReflTransGen (Edge next) root node

theorem Leads.step {root node target : α} {walking : List α}
    (hleads : Leads next root walking node) (hedge : target ∈ next node) :
    Leads next root (walking ++ [node]) target where
  walked := by
    intro a ha
    rcases List.mem_append.mp ha with ha | ha
    · exact (hleads.walked a ha).tail hedge
    · obtain rfl := List.mem_singleton.mp ha
      exact .single hedge
  reached := hleads.reached.tail hedge

variable [DecidableEq α]

theorem walk_settles (fuel : ℕ) (node : α) (before after : Marks α)
    (hwalk : walk next fuel node before = some (.ok after)) :
    Settles next [node] before after := by
  induction fuel generalizing node before after with
  | zero => simp [walk] at hwalk
  | succ fuel ih =>
    rw [walk] at hwalk
    by_cases hsettled : node ∈ before.settled
    · rw [if_pos hsettled] at hwalk
      obtain rfl : before = after := by simpa using hwalk
      exact ⟨rfl, fun _ h ↦ h, by simpa using hsettled, fun h ↦ h⟩
    · rw [if_neg hsettled] at hwalk
      by_cases hwalking : node ∈ before.walking
      · simp [hwalking] at hwalk
      · rw [if_neg hwalking] at hwalk
        cases hall : visitAll (walk next fuel) (next node)
            { before with walking := before.walking ++ [node] } with
        | none => simp [hall] at hwalk
        | some answer =>
          cases answer with
          | error c => simp [hall] at hwalk
          | ok between =>
            have hvisited := visitAll_settles ih _ _ _ hall
            obtain rfl : Marks.mk (between.settled ++ [node]) between.walking.dropLast = after := by
              simpa [hall] using hwalk
            refine ⟨?_, ?_, ?_, ?_⟩
            · simp [hvisited.walking]
            · intro a ha
              exact List.mem_append_left _ (hvisited.mono a ha)
            · simp
            · -- the targets are settled by now, so every step out of `node` ends
              intro hends a ha
              have hbetween := hvisited.ends hends
              rcases List.mem_append.mp ha with ha | ha
              · exact hbetween a ha
              · obtain rfl := List.mem_singleton.mp ha
                exact Acc.intro a fun b hedge ↦ hbetween b (hvisited.settled b hedge)

theorem walk_error {root : α} (fuel : ℕ) (node : α) (marks : Marks α) (c : α)
    (hleads : Leads next root marks.walking node)
    (hwalk : walk next fuel node marks = some (.error c)) :
    Relation.ReflTransGen (Edge next) root c ∧ Relation.TransGen (Edge next) c c := by
  induction fuel generalizing node marks with
  | zero => simp [walk] at hwalk
  | succ fuel ih =>
    rw [walk] at hwalk
    by_cases hsettled : node ∈ marks.settled
    · simp [hsettled] at hwalk
    · rw [if_neg hsettled] at hwalk
      by_cases hwalking : node ∈ marks.walking
      · obtain rfl : node = c := by simpa [hwalking] using hwalk
        exact ⟨hleads.reached, hleads.walked node hwalking⟩
      · rw [if_neg hwalking] at hwalk
        cases hall : visitAll (walk next fuel) (next node)
            { marks with walking := marks.walking ++ [node] } with
        | none => simp [hall] at hwalk
        | some answer =>
          cases answer with
          | ok between => simp [hall] at hwalk
          | error d =>
            obtain rfl : d = c := by simpa [hall] using hwalk
            obtain ⟨target, hmem, between, hbetween, htarget⟩ :=
              visitAll_error (walk_settles fuel) hall
            exact ih target between (hbetween ▸ hleads.step hmem) htarget

/-! ## Enough fuel -/

omit [DecidableEq α] in
theorem visitAll_ne_none {visit : α → Marks α → Option (Except α (Marks α))}
    (hvisit : ∀ target before after, visit target before = some (.ok after) →
      Settles next [target] before after)
    {targets : List α} {before : Marks α}
    (hanswers : ∀ target ∈ targets, ∀ marks, marks.walking = before.walking →
      visit target marks ≠ none) :
    visitAll visit targets before ≠ none := by
  induction targets generalizing before with
  | nil => simp [visitAll]
  | cons target targets ih =>
    rw [visitAll]
    cases hfirst : visit target before with
    | none => exact absurd hfirst (hanswers target (List.mem_cons_self ..) before rfl)
    | some answer =>
      cases answer with
      | error c => simp
      | ok between =>
        have hwalking := (hvisit target before between hfirst).walking
        exact ih fun later hlater marks hmarks ↦
          hanswers later (List.mem_cons_of_mem _ hlater) marks (hmarks.trans hwalking)

/-- Entering a node leaves fewer nodes outside the branch. -/
theorem length_filter_walking {names walking : List α} {node : α} (hmem : node ∈ names)
    (hout : node ∉ walking) :
    (names.filter (· ∉ walking ++ [node])).length < (names.filter (· ∉ walking)).length := by
  have hsub : names.filter (· ∉ walking ++ [node]) =
      (names.filter (· ∉ walking)).filter (· ≠ node) := by
    rw [List.filter_filter]
    apply List.filter_congr
    intro a _
    simp [not_or, and_comm]
  rw [hsub]
  refine List.length_filter_lt_length_iff_exists.mpr ⟨node, ?_, by simp⟩
  exact List.mem_filter.mpr ⟨hmem, by simpa using hout⟩

theorem walk_ne_none {names : List α} (hclosed : ∀ a ∈ names, ∀ b ∈ next a, b ∈ names)
    (fuel : ℕ) (node : α) (marks : Marks α) (hmem : node ∈ names)
    (hfuel : (names.filter (· ∉ marks.walking)).length < fuel) :
    walk next fuel node marks ≠ none := by
  induction fuel generalizing node marks with
  | zero => omega
  | succ fuel ih =>
    rw [walk]
    by_cases hsettled : node ∈ marks.settled
    · simp [hsettled]
    · by_cases hwalking : node ∈ marks.walking
      · simp [hsettled, hwalking]
      · rw [if_neg hsettled, if_neg hwalking]
        have hall : visitAll (walk next fuel) (next node)
            { marks with walking := marks.walking ++ [node] } ≠ none := by
          apply visitAll_ne_none (walk_settles fuel)
          intro target htarget between hbetween
          apply ih target between (hclosed node hmem target htarget)
          rw [hbetween]
          exact (length_filter_walking hmem hwalking).trans_le (Nat.le_of_lt_succ hfuel)
        cases hanswer : visitAll (walk next fuel) (next node)
            { marks with walking := marks.walking ++ [node] } with
        | none => exact absurd hanswer hall
        | some answer => cases answer <;> simp

/-- However much fuel it had, a walk that succeeds has found no cycle. -/
theorem not_reachesCycle_of_visitAll {roots : List α} {fuel : ℕ} {marks : Marks α}
    (hwalk : visitAll (walk next fuel) roots ⟨[], []⟩ = some (.ok marks)) :
    ∀ root ∈ roots, ¬ ReachesCycle next root := by
  intro root hroot
  have hsettles := visitAll_settles (walk_settles fuel) _ _ _ hwalk
  exact (hsettles.ends (by simp) root (hsettles.settled root hroot)).not_reachesCycle

/-- The walk from every root in turn answers, and answers whether a cycle can be reached. -/
theorem visitAll_walk {names roots : List α} (hclosed : ∀ a ∈ names, ∀ b ∈ next a, b ∈ names)
    (hroots : ∀ root ∈ roots, root ∈ names) (fuel : ℕ) (hfuel : names.length < fuel) :
    (∃ marks, visitAll (walk next fuel) roots ⟨[], []⟩ = some (.ok marks) ∧
      ∀ root ∈ roots, ¬ ReachesCycle next root) ∨
    (∃ c, visitAll (walk next fuel) roots ⟨[], []⟩ = some (.error c) ∧
      Relation.TransGen (Edge next) c c ∧
      ∃ root ∈ roots, Relation.ReflTransGen (Edge next) root c) := by
  have hanswers : visitAll (walk next fuel) roots ⟨[], []⟩ ≠ none := by
    apply visitAll_ne_none (walk_settles fuel)
    intro root hroot marks hmarks
    apply walk_ne_none hclosed fuel root marks (hroots root hroot)
    exact (List.length_filter_le _ _).trans_lt hfuel
  cases hanswer : visitAll (walk next fuel) roots ⟨[], []⟩ with
  | none => exact absurd hanswer hanswers
  | some answer =>
    cases answer with
    | ok marks => exact Or.inl ⟨marks, rfl, not_reachesCycle_of_visitAll hanswer⟩
    | error c =>
      obtain ⟨root, hroot, marks, hmarks, hwalk⟩ := visitAll_error (walk_settles fuel) hanswer
      have hleads : Leads next root marks.walking root := by
        rw [hmarks]
        exact ⟨by simp, .refl⟩
      obtain ⟨hreach, hcycle⟩ := walk_error fuel root marks c hleads hwalk
      exact Or.inr ⟨c, rfl, hcycle, root, hroot, hreach⟩

end Sdrmm.Dfs
