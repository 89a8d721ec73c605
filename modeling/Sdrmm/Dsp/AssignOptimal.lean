import Sdrmm.Dsp.AssignPadded
import Sdrmm.Dsp.AssignSearch

/-!
# The assignment that is given out

`run_spec` is that all rows of the padded square are placed at reduced costs of zero, whatever the buffers held
before.  The padded square has as many real pairs in every assignment, so that least cost first means most pairs
that are allowed and then the least total of them: `solve_optimal` is this over every run of calls.
-/

namespace Sdrmm.Assign

open Lib.Checked Lib.Potentials Assignment

/-! ## All rows -/

section Run

variable {mostRows mostCols size count : ℕ} {cost : ℕ → ℕ → Exact} {a : Assignment} {s : View}

/-- The first rows are placed, at reduced costs of zero. -/
structure Settled (size count : ℕ) (cost : ℕ → ℕ → Exact) (s : View) : Prop where
  placed : Placed ((Finset.range (size + 1)).erase 0) count s.owner
  feasible : ∀ row, 1 ≤ row → row ≤ count → ∀ col, 1 ≤ col → col ≤ size → 0 ≤ reduced cost s.u s.v row col
  tight : ∀ col, 1 ≤ col → col ≤ size → s.owner col ≠ 0 → reduced cost s.u s.v (s.owner col) col = 0

/-- The next row is at the root, and nothing of its search is known. -/
def View.rooted (s : View) (row : ℕ) : View :=
  { s with
    owner := fun col ↦ if col = 0 then row else s.owner col
    slack := fun _ ↦ ⊤
    used := fun _ ↦ false }

theorem tree_rooted (hsettled : Settled size count cost s) :
    Tree size (count + 1) cost (fun _ ↦ 0) (s.rooted (count + 1)) 0 0 where
  placed := hsettled.placed.root (Tree.mem_columns (Nat.zero_le size))
  root := rfl
  current_le := Nat.zero_le size
  fresh := rfl
  owned := fun _ _ hused ↦ absurd hused Bool.false_ne_true
  first := fun _ ↦ rfl
  later := fun h ↦ absurd h (Nat.not_succ_le_zero 0)
  card := by
    rw [Finset.card_eq_zero, Finset.filter_eq_empty_iff]
    exact fun _ _ ↦ Bool.false_ne_true
  rank_current := rfl
  rank_used := fun _ _ hused ↦ absurd hused Bool.false_ne_true
  feasible := by
    intro row hpos hle hlast col hcolPos hcol
    have hne : row ≠ count + 1 := fun h ↦ absurd (hlast h) (Nat.not_succ_le_zero 0)
    exact hsettled.feasible row hpos (by omega) col hcolPos hcol
  tight := by
    intro col hpos hle howned
    have hne : col ≠ 0 := by omega
    have hown : (s.rooted (count + 1)).owner col = s.owner col := if_neg hne
    rw [hown] at howned ⊢
    exact hsettled.tight col hpos hle howned
  edge := by
    intro col hpos _ hmember
    rcases hmember with hused | rfl
    · exact absurd hused Bool.false_ne_true
    · exact absurd hpos (Nat.not_succ_le_zero 0)

theorem Walk.start {rank : ℕ → ℕ} {row free last : ℕ} (htree : Tree size row cost rank s free last)
    (hfree : s.owner free = 0) : Walk size row cost rank s s.owner free where
  placed := htree.placed.free hfree
  tight := fun col hpos hle _ howned ↦ htree.tight col hpos hle howned
  kept := fun _ _ _ ↦ rfl

/-- A search has no more rounds than there are rows placed. -/
theorem Tree.last_le {rank : ℕ → ℕ} {row free last : ℕ} (htree : Tree size row cost rank s free last) :
    last ≤ row := by
  rw [← htree.card]
  apply htree.placed.card_le (Finset.filter_subset _ _)
  intro col hcol
  obtain ⟨hmem, hused⟩ := Finset.mem_filter.mp hcol
  exact htree.owned col (Nat.lt_succ_iff.mp (Finset.mem_range.mp hmem)) hused

theorem Walk.settled {rank : ℕ → ℕ} {row free last : ℕ} {owner : ℕ → ℕ}
    (htree : Tree size row cost rank s free last) (hlast : 1 ≤ last)
    (hwalk : Walk size row cost rank s owner 0) : Settled size row cost { s with owner := owner } where
  placed := hwalk.placed
  feasible := fun r hpos hle ↦ htree.feasible r hpos hle fun _ ↦ hlast
  tight := fun col hpos hle howned ↦ hwalk.tight col hpos hle (Nat.ne_of_gt hpos) howned

/-- One more row. -/
theorem place_spec (hready : Ready mostRows mostCols size cost a s) (hsettled : Settled size count cost s)
    (hcount : count < size) (hsize : size ≤ max mostRows mostCols) :
    ∃ a' s', place size a (1 + count) = .ok a' ∧ Shows mostRows mostCols size cost a' s' ∧
      Settled size (count + 1) cost s' := by
  have hslackLe : size + 1 ≤ a.slack.length := by
    rw [hready.sized.slack]
    omega
  have husedLe : size + 1 ≤ a.used.length := by
    rw [hready.sized.used]
    omega
  have hput := hready.owners.update (Nat.succ_pos size) fun _ ↦ 1 + count
  have hslack := fill_of_le hslackLe .UNBOUNDED
  have hused := fill_of_le husedLe false
  have hshows' : Shows mostRows mostCols size cost
      { a with
        colOwner := a.colOwner.modify 0 fun _ ↦ 1 + count
        slack := List.replicate (size + 1) .UNBOUNDED ++ a.slack.drop (size + 1)
        used := List.replicate (size + 1) false ++ a.used.drop (size + 1) } (s.rooted (count + 1)) :=
    { hready with
      sized := { hready.sized with
        colOwner := (List.length_modify ..).trans hready.sized.colOwner
        slack := (length_filled hslackLe _).trans hready.sized.slack
        used := (length_filled husedLe _).trans hready.sized.used }
      owners := (hready.owners.modify _ _).congr fun col _ ↦ by
        rw [Nat.add_comm]
        rfl
      slacks := holds_filled _ _
      uses := holds_filled _ _ }
  have htree := tree_rooted hsettled
  obtain ⟨found, free, s', rank, last, hsearch, hfound, htree', hfree, hlast⟩ :=
    searchFrom_spec (Nat.succ_le_of_lt hcount) (size + 1) hshows' htree (Nat.succ_ne_zero count)
      (.inr fun _ _ ↦ ⟨rfl, rfl⟩) (by omega)
  have hrank : rank free < size + 1 := by
    have hle := htree'.last_le
    rw [htree'.rank_current]
    omega
  obtain ⟨a', owner, haugment, hshows'', hwalk⟩ :=
    augmentFrom_spec htree' (size + 1) hfound htree'.current_le (.inr rfl) (Walk.start htree' hfree) hrank
  refine ⟨a', _, ?_, hshows'', hwalk.settled htree' hlast⟩
  rw [place, hput, ok_bind, hslack, ok_bind, hused, ok_bind]
  change searchFrom size (size + 1) _ 0 >>= _ = _
  rw [hsearch, ok_bind]
  exact haugment

/-- Nothing is placed yet. -/
def View.cleared : View where
  u := fun _ ↦ 0
  v := fun _ ↦ 0
  owner := fun _ ↦ 0
  way := fun _ ↦ 0
  slack := fun _ ↦ ⊤
  used := fun _ ↦ false

theorem settled_cleared : Settled size 0 cost .cleared where
  placed := {
    le := fun _ _ ↦ le_rfl
    inj := fun _ _ _ _ _ hne ↦ absurd rfl hne
    surj := fun _ hpos hle ↦ absurd (hpos.trans hle) (Nat.not_succ_le_zero 0) }
  feasible := fun _ hpos hle ↦ absurd (hpos.trans hle) (Nat.not_succ_le_zero 0)
  tight := fun _ _ _ hne ↦ absurd rfl hne

theorem run_spec (hsized : Sized mostRows mostCols a) (hsize : size ≤ max mostRows mostCols)
    (hcells : ∀ row col, 1 ≤ row → row ≤ size → 1 ≤ col → col ≤ size →
      a.cost[(row - 1) * size + col - 1]? = some (.exact (cost row col))) :
    ∃ a' s', run size a = .ok a' ∧ Ready mostRows mostCols size cost a' s' ∧ Settled size size cost s' := by
  have hrowLe : size + 1 ≤ a.rowPotential.length := by
    rw [hsized.rowPotential]
    omega
  have hcolLe : size + 1 ≤ a.colPotential.length := by
    rw [hsized.colPotential]
    omega
  have hownerLe : size + 1 ≤ a.colOwner.length := by
    rw [hsized.colOwner]
    omega
  have hwayLe : size + 1 ≤ a.way.length := by
    rw [hsized.way]
    omega
  have hready : Ready mostRows mostCols size cost
      { a with
        rowPotential := List.replicate (size + 1) .OPEN ++ a.rowPotential.drop (size + 1)
        colPotential := List.replicate (size + 1) .OPEN ++ a.colPotential.drop (size + 1)
        colOwner := List.replicate (size + 1) 0 ++ a.colOwner.drop (size + 1)
        way := List.replicate (size + 1) 0 ++ a.way.drop (size + 1) } .cleared := {
    sized := { hsized with
      rowPotential := (length_filled hrowLe _).trans hsized.rowPotential
      colPotential := (length_filled hcolLe _).trans hsized.colPotential
      colOwner := (length_filled hownerLe _).trans hsized.colOwner
      way := (length_filled hwayLe _).trans hsized.way }
    cells := hcells
    rows := holds_filled _ _
    cols := holds_filled _ _
    owners := holds_filled _ _
    ways := holds_filled _ _ }
  obtain ⟨a', hrun, s', hready', hsettled⟩ := exists_foldlM_range' (place size)
    (fun count a ↦ ∃ s, Ready mostRows mostCols size cost a s ∧ Settled size count cost s) 1 size (by
      intro count hcount a ⟨s, hready, hsettled⟩
      obtain ⟨a', s', hplace, hshows, hsettled'⟩ := place_spec hready hsettled hcount hsize
      exact ⟨a', hplace, s', hshows.toReady, hsettled'⟩)
    ⟨.cleared, hready, settled_cleared⟩
  refine ⟨a', s', ?_, hready', hsettled⟩
  rw [run, fill_of_le hrowLe, ok_bind, fill_of_le hcolLe, ok_bind, fill_of_le hownerLe, ok_bind,
    fill_of_le hwayLe, ok_bind]
  exact hrun

/-- The columns of the rows when all are placed. -/
theorem Settled.exists_assignment (hsettled : Settled size size cost s) :
    ∃ pick : ℕ → ℕ, IsAssignment (Finset.range size) (Finset.range size) pick ∧
      ∀ row < size, s.owner (pick row + 1) = row + 1 := by
  have hcolumn : ∀ row, ∃ col, row < size → col < size ∧ s.owner (col + 1) = row + 1 := by
    intro row
    by_cases hrow : row < size
    · obtain ⟨col, hmem, hown⟩ := hsettled.placed.surj (row + 1) (Nat.succ_pos row) hrow
      obtain ⟨hne, hrange⟩ := Finset.mem_erase.mp hmem
      have hpos : 1 ≤ col := Nat.pos_of_ne_zero hne
      refine ⟨col - 1, fun _ ↦ ⟨?_, ?_⟩⟩
      · have hlt := Finset.mem_range.mp hrange
        omega
      · rw [Nat.sub_add_cancel hpos, hown]
    · exact ⟨0, fun h ↦ absurd h hrow⟩
  choose pick hpick using hcolumn
  refine ⟨pick, ⟨?_, ?_, rfl⟩, fun row hrow ↦ (hpick row hrow).2⟩
  · exact fun row hrow ↦ Finset.mem_range.mpr (hpick row (Finset.mem_range.mp hrow)).1
  · intro row hrow other hother heq
    have hown := (hpick row (Finset.mem_range.mp hrow)).2
    rw [heq, (hpick other (Finset.mem_range.mp hother)).2] at hown
    omega

/-- No assignment costs less. -/
theorem Settled.sum_le (hsettled : Settled size size cost s) {pick other : ℕ → ℕ}
    (hpick : IsAssignment (Finset.range size) (Finset.range size) pick)
    (howner : ∀ row < size, s.owner (pick row + 1) = row + 1)
    (hother : IsAssignment (Finset.range size) (Finset.range size) other) :
    ∑ row ∈ Finset.range size, cost (row + 1) (pick row + 1) ≤
      ∑ row ∈ Finset.range size, cost (row + 1) (other row + 1) := by
  apply @sum_le_of_tight _ _ _ _ (fun row col ↦ cost (row + 1) (col + 1)) (fun row ↦ s.u (row + 1))
    (fun col ↦ s.v (col + 1)) _ _ _ _ _ _ hpick hother
  · intro row hrow col hcol
    exact hsettled.feasible (row + 1) (Nat.succ_pos row) (Finset.mem_range.mp hrow) (col + 1) (Nat.succ_pos col)
      (Finset.mem_range.mp hcol)
  · intro row hrow
    have hown := howner row (Finset.mem_range.mp hrow)
    have htight := hsettled.tight (pick row + 1) (Nat.succ_pos _) (Finset.mem_range.mp (hpick.mem row hrow))
    rw [hown] at htight
    exact htight (Nat.succ_ne_zero row)

end Run

/-! ## The table of a problem -/

section Fill

variable {mostRows mostCols rows cols size : ℕ} {cost : ℕ → ℕ → Option F64} {a : Assignment}

theorem cell_lt {row col : ℕ} (hrow : row < size) (hcol : col < size) : row * size + col < size * size := by
  calc
    row * size + col < row * size + size := Nat.add_lt_add_left hcol _
    _ = (row + 1) * size := (Nat.succ_mul row size).symm
    _ ≤ size * size := Nat.mul_le_mul_right size hrow

theorem cell_inj {row col other col' : ℕ} (hcol : col < size) (hcol' : col' < size)
    (heq : row * size + col = other * size + col') : row = other ∧ col = col' := by
  have hpos : 0 < size := Nat.zero_lt_of_lt hcol
  have hrow : row = other := by
    have hdiv := congrArg (· / size) heq
    simpa only [Nat.mul_comm _ size, Nat.mul_add_div hpos, Nat.div_eq_of_lt hcol, Nat.div_eq_of_lt hcol',
      Nat.add_zero] using hdiv
  subst hrow
  exact ⟨rfl, Nat.add_left_cancel heq⟩

/-- The cells that have been written. -/
def Filled (rows cols size : ℕ) (cost : ℕ → ℕ → Option F64) (row count : ℕ) (a : Assignment) : Prop :=
  ∀ r c, c < size → r < row ∨ r = row ∧ c < count → a.cost[r * size + c]? = some (padded rows cols cost r c)

theorem fillCell_spec (hsized : Sized mostRows mostCols a) (hsize : size ≤ max mostRows mostCols) {row count : ℕ}
    (hrow : row < size) (hcount : count < size) (hfilled : Filled rows cols size cost row count a) :
    ∃ a', fillCell rows cols size cost row a count = .ok a' ∧ Sized mostRows mostCols a' ∧
      Filled rows cols size cost row (count + 1) a' := by
  have hlt : row * size + count < a.cost.length := by
    rw [hsized.cost]
    exact (cell_lt hrow hcount).trans_le (Nat.mul_le_mul hsize hsize)
  refine ⟨{ a with cost := a.cost.modify (row * size + count) fun _ ↦ padded rows cols cost row count }, ?_, ?_, ?_⟩
  · rw [fillCell, update_of_lt hlt, ok_bind]
    rfl
  · exact { hsized with cost := (List.length_modify ..).trans hsized.cost }
  · intro r c hc hwritten
    rw [List.getElem?_modify]
    by_cases heq : row * size + count = r * size + c
    · obtain ⟨rfl, rfl⟩ := cell_inj hcount hc heq
      rw [List.getElem?_eq_getElem hlt]
      exact congrArg some (if_pos rfl)
    · have hbefore : r < row ∨ r = row ∧ c < count := by
        rcases hwritten with hless | ⟨rfl, hle⟩
        · exact .inl hless
        · refine .inr ⟨rfl, lt_of_le_of_ne (Nat.lt_succ_iff.mp hle) ?_⟩
          rintro rfl
          exact heq rfl
      rw [hfilled r c hc hbefore]
      exact congrArg some (if_neg heq)

theorem fill_spec (hsized : Sized mostRows mostCols a) (hsize : size ≤ max mostRows mostCols) :
    ∃ a', a.fill rows cols size cost = .ok a' ∧ Sized mostRows mostCols a' ∧
      ∀ r < size, ∀ c < size, a'.cost[r * size + c]? = some (padded rows cols cost r c) := by
  obtain ⟨a', hrun, hsized', hfilled⟩ := exists_foldlM_range
    (fun a row ↦ (List.range size).foldlM (fillCell rows cols size cost row) a)
    (fun row a ↦ Sized mostRows mostCols a ∧ Filled rows cols size cost row 0 a) size (by
      intro row hrow a ⟨hsized, hfilled⟩
      obtain ⟨a', hrun, hsized', hfilled'⟩ := exists_foldlM_range (fillCell rows cols size cost row)
        (fun count a ↦ Sized mostRows mostCols a ∧ Filled rows cols size cost row count a) size
        (fun count hcount a ⟨hsized, hfilled⟩ ↦ fillCell_spec hsized hsize hrow hcount hfilled)
        ⟨hsized, hfilled⟩
      refine ⟨a', hrun, hsized', fun r c hc hwritten ↦ hfilled' r c hc ?_⟩
      omega)
    (s := a) ⟨hsized, fun r c _ h ↦ absurd h (by omega)⟩
  exact ⟨a', hrun, hsized', fun r hr c hc ↦ hfilled r c hc (.inl hr)⟩

end Fill

/-! ## What is given out -/

section Collect

variable {mostRows mostCols rows cols : ℕ} {cost : ℕ → ℕ → Option F64} {a : Assignment} {s : View}
  {pick : ℕ → ℕ} {out out' : List (Option ℕ)} {count : ℕ}

/-- What is given out when the columns before `count` have been seen. -/
def chosenBefore (cols : ℕ) (cost : ℕ → ℕ → Option F64) (pick : ℕ → ℕ) (count row : ℕ) : Option ℕ :=
  if pick row < count then chosen cols cost pick row else none

/-- The slice that is given, the columns before `count` seen. -/
structure Given (rows cols : ℕ) (cost : ℕ → ℕ → Option F64) (pick : ℕ → ℕ) (out : List (Option ℕ)) (count : ℕ)
    (given : List (Option ℕ) × ℕ) : Prop where
  length : given.1.length = out.length
  written : Holds given.1 rows (chosenBefore cols cost pick count)
  kept : given.1.drop rows = out.drop rows
  assigned : given.2 = matched rows (chosenBefore cols cost pick count)

/-- The columns of the rows of an object in which all rows are placed. -/
structure Ends (rows cols : ℕ) (cost : ℕ → ℕ → Option F64) (a : Assignment) (pick : ℕ → ℕ) : Prop where
  square : Square rows cols pick
  owners : ∀ row < max rows cols, a.colOwner[pick row + 1]? = some (row + 1)
  cells : ∀ row < max rows cols, ∀ col < max rows cols,
    a.cost[row * max rows cols + col]? = some (padded rows cols cost row col)

theorem Ends.exists_row (hends : Ends rows cols cost a pick) (hcount : count < max rows cols) :
    ∃ row < max rows cols, pick row = count := by
  have hsurj := Finset.surjOn_of_injOn_of_card_le pick hends.square.mem
    (fun row hrow other hother ↦ hends.square.inj row hrow other hother) le_rfl
  obtain ⟨row, hrow, heq⟩ := hsurj (Finset.mem_coe.mpr (Finset.mem_range.mpr hcount))
  exact ⟨row, Finset.mem_range.mp (Finset.mem_coe.mp hrow), heq⟩

theorem chosenBefore_succ_of_ne {row : ℕ} (hne : pick row ≠ count) :
    chosenBefore cols cost pick (count + 1) row = chosenBefore cols cost pick count row :=
  if_congr (by omega) rfl rfl

theorem Given.congr {given : List (Option ℕ) × ℕ} {later : ℕ} (hgiven : Given rows cols cost pick out count given)
    (hsame : ∀ row < rows, chosenBefore cols cost pick count row = chosenBefore cols cost pick later row) :
    Given rows cols cost pick out later given := by
  refine ⟨hgiven.length, hgiven.written.congr hsame, hgiven.kept, ?_⟩
  rw [hgiven.assigned, matched, matched]
  congr 1
  apply Finset.filter_congr
  intro row hrow
  rw [hsame row (Finset.mem_range.mp hrow)]

/-- A column of which nothing is given out. -/
theorem Given.skip {given : List (Option ℕ) × ℕ} (hgiven : Given rows cols cost pick out count given)
    (hnone : ∀ row < rows, pick row = count → chosen cols cost pick row = none) :
    Given rows cols cost pick out (count + 1) given := by
  apply hgiven.congr
  intro row hrow
  by_cases heq : pick row = count
  · rw [chosenBefore, chosenBefore, hnone row hrow heq, ite_self, ite_self]
  · exact (chosenBefore_succ_of_ne heq).symm

/-- A column that is given to its row. -/
theorem Given.give {assigned : ℕ} (hgiven : Given rows cols cost pick out count (out', assigned))
    (hends : Ends rows cols cost a pick) {row : ℕ} (hrow : row < rows) (hpick : pick row = count)
    (hchosen : chosen cols cost pick row = some count) :
    Given rows cols cost pick out (count + 1) (out'.modify row fun _ ↦ some count, assigned + 1) := by
  have hmem {row : ℕ} (hrow : row < rows) : row ∈ Finset.range (max rows cols) :=
    Finset.mem_range.mpr (hrow.trans_le (le_max_left rows cols))
  have hother {other : ℕ} (hother : other < rows) (hne : other ≠ row) : pick other ≠ count := fun h ↦
    hne (hends.square.inj other (hmem hother) row (hmem hrow) (h.trans hpick.symm))
  have hnow : chosenBefore cols cost pick (count + 1) row = some count := by
    rw [chosenBefore, hpick, if_pos (Nat.lt_succ_self count), hchosen]
  constructor
  · exact (List.length_modify ..).trans hgiven.length
  · apply (hgiven.written.modify row fun _ ↦ some count).congr
    intro other hlt
    by_cases heq : other = row
    · rw [if_pos heq, heq, hnow]
    · rw [if_neg heq, chosenBefore_succ_of_ne (hother hlt heq)]
  · exact (List.drop_modify_of_lt _ _ _ _ hrow).trans hgiven.kept
  · have hsplit : (Finset.range rows).filter (fun other ↦ (chosenBefore cols cost pick (count + 1) other).isSome) =
        insert row ((Finset.range rows).filter fun other ↦ (chosenBefore cols cost pick count other).isSome) := by
      ext other
      rw [Finset.mem_filter, Finset.mem_insert, Finset.mem_filter]
      by_cases heq : other = row
      · rw [heq, hnow]
        exact iff_of_true ⟨Finset.mem_range.mpr hrow, rfl⟩ (.inl rfl)
      · rw [or_iff_right heq]
        refine and_congr_right fun hlt ↦ ?_
        rw [chosenBefore_succ_of_ne (hother (Finset.mem_range.mp hlt) heq)]
    have hnot : row ∉ (Finset.range rows).filter fun other ↦ (chosenBefore cols cost pick count other).isSome := by
      intro h
      have hsome := (Finset.mem_filter.mp h).2
      rw [chosenBefore, hpick, if_neg (lt_irrefl count)] at hsome
      exact Bool.false_ne_true hsome
    have hassigned : assigned = _ := hgiven.assigned
    rw [matched, hsplit, Finset.card_insert_of_notMem hnot, hassigned]
    rfl

theorem given_zero (hlength : rows ≤ out.length) : Given rows cols cost pick out 0
    (List.replicate rows none ++ out.drop rows, 0) where
  length := length_filled hlength none
  written := (holds_filled _ _).congr fun _ _ ↦ rfl
  kept := List.drop_left' List.length_replicate
  assigned := by
    rw [matched, Finset.filter_eq_empty_iff.mpr, Finset.card_empty]
    exact fun row _ ↦ Bool.false_ne_true

theorem collectCol_spec (hends : Ends rows cols cost a pick) (hrows : rows ≤ out.length) (hcount : count < cols)
    {given : List (Option ℕ) × ℕ} (hgiven : Given rows cols cost pick out count given) :
    ∃ given', collectCol rows (max rows cols) a given (1 + count) = .ok given' ∧
      Given rows cols cost pick out (count + 1) given' := by
  have hsize : count < max rows cols := hcount.trans_le (le_max_right rows cols)
  obtain ⟨row, hrow, hpick⟩ := hends.exists_row hsize
  have hother {other : ℕ} (hother : other < max rows cols) (heq : pick other = count) : other = row :=
    hends.square.inj other (Finset.mem_range.mpr hother) row (Finset.mem_range.mpr hrow) (heq.trans hpick.symm)
  have hown : index a.colOwner (1 + count) = .ok (row + 1) := by
    rw [index, Nat.add_comm 1 count, ← hpick, hends.owners row hrow]
  obtain ⟨out', assigned⟩ := given
  rw [collectCol]
  change ∃ given', (index a.colOwner (1 + count) >>= _) = _ ∧ _
  rw [hown, ok_bind]
  by_cases hin : row < rows
  · have hcond : ¬(row + 1 = 0 ∨ rows < row + 1) := by omega
    have hcell : index a.cost (row * max rows cols + (1 + count) - 1) =
        .ok (padded rows cols cost row count) := by
      rw [show row * max rows cols + (1 + count) - 1 = row * max rows cols + count by omega, index,
        hends.cells row hrow count hsize]
    have hpadded : padded rows cols cost row count = .of (cost row count) := if_pos ⟨hin, hcount⟩
    have hput := update_of_lt (show row < out'.length by rw [hgiven.length]; omega)
      fun _ : Option ℕ ↦ some (1 + count - 1)
    rw [if_neg hcond, sub_of_le (show 1 ≤ row + 1 by omega), ok_bind, Nat.add_sub_cancel, sub_of_le (by omega),
      ok_bind, hcell, ok_bind, hpadded]
    by_cases hallowed : (Cost.of (cost row count)).allowed = true
    · rw [if_pos hallowed, ok_bind, hput, ok_bind, Nat.add_sub_cancel_left]
      refine ⟨_, rfl, hgiven.give hends hin hpick ?_⟩
      exact chosen_eq_some.mpr ⟨hpick, hcount, allowed_of.mp hallowed⟩
    · rw [if_neg hallowed]
      refine ⟨_, rfl, hgiven.skip fun other hlt heq ↦ ?_⟩
      rw [hother (hlt.trans_le (le_max_left rows cols)) heq, chosen, hpick]
      exact if_neg fun h ↦ hallowed h.2
  · rw [if_pos (.inr (by omega))]
    refine ⟨_, rfl, hgiven.skip fun other hlt heq ↦ ?_⟩
    exact absurd (hother (hlt.trans_le (le_max_left rows cols)) heq ▸ hlt) hin

theorem collect_spec (hends : Ends rows cols cost a pick) (hrows : rows ≤ out.length) :
    ∃ given, a.collect rows cols (max rows cols) (List.replicate rows none ++ out.drop rows) = .ok given ∧
      Given rows cols cost pick out cols given :=
  exists_foldlM_range' (collectCol rows (max rows cols) a) (Given rows cols cost pick out) 1 cols
    (fun _ hcount _ hgiven ↦ collectCol_spec hends hrows hcount hgiven) (given_zero hrows)

/-! ## A problem that is solved -/

/-- The slice that was written to is a matching of the greatest size and of the least cost at this size, which is
returned. -/
structure Solved (rows cols : ℕ) (cost : ℕ → ℕ → Option F64) (out out' : List (Option ℕ)) (count : ℕ) : Prop where
  length : out'.length = out.length
  rest : out'.drop rows = out.drop rows
  matching : IsMatching rows cols cost fun row ↦ out'.getD row none
  size : matched rows (fun row ↦ out'.getD row none) = count
  most : ∀ other, IsMatching rows cols cost other → matched rows other ≤ count
  least : ∀ other, IsMatching rows cols cost other → matched rows other = count →
    totalCost rows cost (fun row ↦ out'.getD row none) ≤ totalCost rows cost other

theorem chosenBefore_cols (row : ℕ) : chosenBefore cols cost pick cols row = chosen cols cost pick row := by
  rw [chosenBefore]
  split_ifs with hlt
  · rfl
  · exact (if_neg fun h ↦ hlt h.1).symm

theorem Given.solved {assigned : ℕ} (hgiven : Given rows cols cost pick out cols (out', assigned))
    (hsquare : Square rows cols pick)
    (hleast : ∀ other, Square rows cols other →
      ∑ row ∈ Finset.range (max rows cols), weight rows cols cost row (pick row) ≤
        ∑ row ∈ Finset.range (max rows cols), weight rows cols cost row (other row)) :
    Solved rows cols cost out out' assigned := by
  have hread : ∀ row < rows, out'.getD row none = chosen cols cost pick row := by
    intro row hrow
    rw [List.getD_eq_getElem?_getD, hgiven.written row hrow, chosenBefore_cols]
    rfl
  have hassigned : assigned = matched rows (chosen cols cost pick) := by
    have hsame : chosenBefore cols cost pick cols = chosen cols cost pick := funext chosenBefore_cols
    rw [← hsame]
    exact hgiven.assigned
  have hmatching := @isMatching_chosen _ _ cost _ hsquare
  constructor
  · exact hgiven.length
  · exact hgiven.kept
  · constructor
    · intro row hrow col hcol
      rw [hread row hrow] at hcol
      exact hmatching.allowed row hrow col hcol
    · intro row hrow other hother col hcol hcol'
      rw [hread row hrow] at hcol
      rw [hread other hother] at hcol'
      exact hmatching.inj row hrow other hother col hcol hcol'
  · rw [hassigned, matched, matched]
    congr 1
    apply Finset.filter_congr
    intro row hrow
    rw [hread row (Finset.mem_range.mp hrow)]
  · intro other hother
    rw [hassigned]
    exact (chosen_optimal hsquare hleast hother).1
  · intro other hother heq
    rw [hassigned] at heq
    refine le_of_eq_of_le ?_ ((chosen_optimal hsquare hleast hother).2 heq)
    apply Finset.sum_congr rfl
    intro row hrow
    exact congrArg (pairTotal cost row) (hread row (Finset.mem_range.mp hrow))

theorem square_id : Square rows cols id where
  mem := fun _ hrow ↦ hrow
  inj := fun _ _ _ _ heq ↦ heq
  card := rfl

/-- Nothing can be matched. -/
theorem solved_empty (hempty : rows = 0 ∨ cols = 0) (hlength : rows ≤ out.length) :
    Solved rows cols cost out (List.replicate rows none ++ out.drop rows) 0 := by
  have hweight (row col : ℕ) : weight rows cols cost row col = 0 := if_neg fun h ↦ by omega
  apply @Given.solved _ _ _ id _ _ _ _ square_id
  · intro other _
    simp only [hweight]
    exact le_rfl
  · apply (given_zero hlength).congr
    intro row hrow
    have hcols : cols = 0 := by omega
    rw [hcols]

end Collect

section Solve

variable {mostRows mostCols rows cols : ℕ} {cost : ℕ → ℕ → Option F64} {a : Assignment} {out : List (Option ℕ)}

theorem sized_new (mostRows mostCols : ℕ) : Sized mostRows mostCols (new mostRows mostCols) where
  maxRows := rfl
  maxCols := rfl
  cost := List.length_replicate
  rowPotential := List.length_replicate
  colPotential := List.length_replicate
  colOwner := List.length_replicate
  way := List.length_replicate
  slack := List.length_replicate
  used := List.length_replicate

theorem solve_over (hsized : Sized mostRows mostCols a) (hover : mostRows < rows ∨ mostCols < cols) :
    a.solve rows cols cost out = .ok (a, out, .error (.capacity rows cols mostRows mostCols)) := by
  rw [solve, hsized.maxRows, hsized.maxCols]
  exact if_pos hover

theorem solve_short (hsized : Sized mostRows mostCols a) (hrows : rows ≤ mostRows) (hcols : cols ≤ mostCols)
    (hshort : out.length < rows) :
    a.solve rows cols cost out = .ok (a, out, .error (.output out.length rows)) := by
  rw [solve, hsized.maxRows, hsized.maxCols]
  exact (if_neg (by omega)).trans (if_pos hshort)

theorem solve_fits (hsized : Sized mostRows mostCols a) (hrows : rows ≤ mostRows) (hcols : cols ≤ mostCols)
    (hlength : rows ≤ out.length) :
    ∃ a' out' count, a.solve rows cols cost out = .ok (a', out', .ok count) ∧ Sized mostRows mostCols a' ∧
      Solved rows cols cost out out' count := by
  have hover : ¬(rows > a.maxRows ∨ cols > a.maxCols) := by
    rw [hsized.maxRows, hsized.maxCols]
    omega
  have hsize : max rows cols ≤ max mostRows mostCols := max_le_max hrows hcols
  rw [solve, if_neg hover, if_neg (not_lt.mpr hlength), fill_of_le hlength, ok_bind]
  by_cases hempty : rows = 0 ∨ cols = 0
  · rw [if_pos hempty]
    exact ⟨a, _, 0, rfl, hsized, solved_empty hempty hlength⟩
  · obtain ⟨filled, hfill, hsized', hcells⟩ := @fill_spec _ _ rows cols _ cost _ hsized hsize
    obtain ⟨a', s, hrun, hready, hsettled⟩ := @run_spec _ _ _
      (fun row col ↦ weight rows cols cost (row - 1) (col - 1)) _ hsized' hsize (by
        intro row col hpos hrow hcolPos hcol
        rw [show (row - 1) * max rows cols + col - 1 = (row - 1) * max rows cols + (col - 1) by omega,
          hcells (row - 1) (by omega) (col - 1) (by omega), padded_eq_weight])
    obtain ⟨pick, hpick, howner⟩ := hsettled.exists_assignment
    have hends : Ends rows cols cost a' pick := {
      square := hpick
      owners := by
        intro row hrow
        have hlt := Finset.mem_range.mp (hpick.mem row (Finset.mem_range.mpr hrow))
        rw [hready.owners (pick row + 1) (by omega), howner row hrow]
      cells := by
        intro row hrow col hcol
        have hcell := hready.cells (row + 1) (col + 1) (by omega) hrow (by omega) hcol
        rw [padded_eq_weight]
        exact hcell }
    obtain ⟨⟨out', assigned⟩, hcollect, hgiven⟩ := collect_spec hends hlength
    refine ⟨a', out', assigned, ?_, hready.sized, hgiven.solved hpick fun other hother ↦ ?_⟩
    · rw [if_neg hempty]
      simp only [hfill, hrun, hcollect, ok_bind]
      rfl
    · exact hsettled.sum_le hpick howner hother

/-! ## Runs of calls -/

/-- What a call is made with. -/
structure Problem where
  rows : ℕ
  cols : ℕ
  cost : ℕ → ℕ → Option F64
  out : List (Option ℕ)

/-- The object after some calls. -/
def after (a : Assignment) (problems : List Problem) : Except Halt Assignment :=
  problems.foldlM (fun a problem ↦ Prod.fst <$> a.solve problem.rows problem.cols problem.cost problem.out) a

theorem sized_solve (hsized : Sized mostRows mostCols a) (problem : Problem) :
    ∃ a', Prod.fst <$> a.solve problem.rows problem.cols problem.cost problem.out = .ok a' ∧
      Sized mostRows mostCols a' := by
  by_cases hover : mostRows < problem.rows ∨ mostCols < problem.cols
  · rw [solve_over hsized hover]
    exact ⟨a, rfl, hsized⟩
  · have hrows : problem.rows ≤ mostRows := by omega
    have hcols : problem.cols ≤ mostCols := by omega
    rcases Nat.lt_or_ge problem.out.length problem.rows with hshort | hlength
    · rw [solve_short hsized hrows hcols hshort]
      exact ⟨a, rfl, hsized⟩
    · obtain ⟨a', out', count, hsolve, hsized', -⟩ := solve_fits hsized hrows hcols hlength
      rw [hsolve]
      exact ⟨a', rfl, hsized'⟩

/-- No call stops an object or changes its capacity. -/
theorem sized_after (problems : List Problem) (hsized : Sized mostRows mostCols a) :
    ∃ a', after a problems = .ok a' ∧ Sized mostRows mostCols a' := by
  induction problems generalizing a with
  | nil => exact ⟨a, rfl, hsized⟩
  | cons problem problems ih =>
    obtain ⟨a', hsolve, hsized'⟩ := sized_solve hsized problem
    rw [after, List.foldlM_cons, hsolve, ok_bind]
    exact ih hsized'

/-- After any calls a problem over capacity is refused before anything is written, one whose slice is too short
as well, and any other is solved as well as it can be. -/
theorem solve_optimal (maxRows maxCols : ℕ) (earlier : List Problem) (problem : Problem) :
    ∃ a, after (new maxRows maxCols) earlier = .ok a ∧
      if maxRows < problem.rows ∨ maxCols < problem.cols then
        a.solve problem.rows problem.cols problem.cost problem.out =
          .ok (a, problem.out, .error (.capacity problem.rows problem.cols maxRows maxCols))
      else if problem.out.length < problem.rows then
        a.solve problem.rows problem.cols problem.cost problem.out =
          .ok (a, problem.out, .error (.output problem.out.length problem.rows))
      else ∃ a' out' count,
        a.solve problem.rows problem.cols problem.cost problem.out = .ok (a', out', .ok count) ∧
          Solved problem.rows problem.cols problem.cost problem.out out' count := by
  obtain ⟨a, hafter, hsized⟩ := sized_after earlier (sized_new maxRows maxCols)
  refine ⟨a, hafter, ?_⟩
  split_ifs with hover hshort
  · exact solve_over hsized hover
  · exact solve_short hsized (by omega) (by omega) hshort
  · obtain ⟨a', out', count, hsolve, -, hsolved⟩ :=
      solve_fits hsized (show problem.rows ≤ maxRows by omega) (show problem.cols ≤ maxCols by omega)
        (not_lt.mp hshort)
    exact ⟨a', out', count, hsolve, hsolved⟩

end Solve

end Sdrmm.Assign
