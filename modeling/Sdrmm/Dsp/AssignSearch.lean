import Sdrmm.Dsp.AssignLoops

/-!
# The search for a column that is free

A search grows a tree of columns from column 0, which holds the row to be placed.  `Tree` is what holds between
two rounds: the reduced costs of the rows placed are not negative, those of the columns with the rows they belong
to are zero, and so is that of a column of the tree with the row of the column before it.  `searchFrom_spec` is
that a search ends at a column without a row.
-/

namespace Sdrmm.Assign

open Lib.Checked Lib.Potentials Assignment

/-! ## Rows that are placed -/

/-- The rows up to `count` own columns of a set, each one of its own, and no other row does. -/
structure Placed (cols : Finset ℕ) (count : ℕ) (owner : ℕ → ℕ) : Prop where
  le : ∀ col ∈ cols, owner col ≤ count
  inj : ∀ col ∈ cols, ∀ other ∈ cols, owner col = owner other → owner col ≠ 0 → col = other
  surj : ∀ row, 1 ≤ row → row ≤ count → ∃ col ∈ cols, owner col = row

section Placed

variable {cols : Finset ℕ} {count : ℕ} {owner : ℕ → ℕ}

theorem Placed.card_le (hplaced : Placed cols count owner) {part : Finset ℕ} (hsub : part ⊆ cols)
    (howned : ∀ col ∈ part, owner col ≠ 0) : part.card ≤ count := by
  calc
    part.card ≤ (Finset.Icc 1 count).card := by
      apply Finset.card_le_card_of_injOn owner
      · intro col hcol
        exact Finset.mem_coe.mpr (Finset.mem_Icc.mpr
          ⟨Nat.pos_of_ne_zero (howned col hcol), hplaced.le col (hsub hcol)⟩)
      · intro col hcol other hother heq
        exact hplaced.inj col (hsub hcol) other (hsub hother) heq (howned col hcol)
    _ = count := Nat.card_Icc 1 count

/-- The next row is put at a column that was left out. -/
theorem Placed.root {hole : ℕ} (hplaced : Placed (cols.erase hole) count owner) (hhole : hole ∈ cols) :
    Placed cols (count + 1) fun col ↦ if col = hole then count + 1 else owner col where
  le := by
    intro col hcol
    split_ifs with heq
    · exact le_rfl
    · exact (hplaced.le col (Finset.mem_erase.mpr ⟨heq, hcol⟩)).trans (Nat.le_succ count)
  inj := by
    intro col hcol other hother heq hne
    by_cases hc : col = hole
    · by_cases ho : other = hole
      · rw [hc, ho]
      · have hle := hplaced.le other (Finset.mem_erase.mpr ⟨ho, hother⟩)
        rw [if_pos hc, if_neg ho] at heq
        omega
    · by_cases ho : other = hole
      · have hle := hplaced.le col (Finset.mem_erase.mpr ⟨hc, hcol⟩)
        rw [if_neg hc, if_pos ho] at heq
        omega
      · rw [if_neg hc] at hne
        rw [if_neg hc, if_neg ho] at heq
        exact hplaced.inj col (Finset.mem_erase.mpr ⟨hc, hcol⟩) other (Finset.mem_erase.mpr ⟨ho, hother⟩) heq hne
  surj := by
    intro row hpos hle
    rcases Nat.lt_or_ge count row with hlt | hge
    · exact ⟨hole, hhole, (if_pos rfl).trans (by omega)⟩
    · obtain ⟨col, hcol, heq⟩ := hplaced.surj row hpos hge
      have hne := Finset.mem_erase.mp hcol
      exact ⟨col, hne.2, (if_neg hne.1).trans heq⟩

/-- A column without a row is left out. -/
theorem Placed.free (hplaced : Placed cols count owner) {free : ℕ} (hfree : owner free = 0) :
    Placed (cols.erase free) count owner where
  le := fun col hcol ↦ hplaced.le col (Finset.mem_of_mem_erase hcol)
  inj := fun col hcol other hother ↦
    hplaced.inj col (Finset.mem_of_mem_erase hcol) other (Finset.mem_of_mem_erase hother)
  surj := by
    intro row hpos hle
    obtain ⟨col, hcol, heq⟩ := hplaced.surj row hpos hle
    refine ⟨col, Finset.mem_erase.mpr ⟨?_, hcol⟩, heq⟩
    rintro rfl
    omega

/-- The column left out takes the row of another, which is left out then. -/
theorem Placed.move {hole previous : ℕ} (hplaced : Placed (cols.erase hole) count owner) (hhole : hole ∈ cols)
    (hprevious : previous ∈ cols) (hne : previous ≠ hole) :
    Placed (cols.erase previous) count fun col ↦ if col = hole then owner previous else owner col := by
  have hmem : previous ∈ cols.erase hole := Finset.mem_erase.mpr ⟨hne, hprevious⟩
  have hother {col : ℕ} (hcol : col ∈ cols.erase previous) (hc : col ≠ hole) : col ∈ cols.erase hole :=
    Finset.mem_erase.mpr ⟨hc, Finset.mem_of_mem_erase hcol⟩
  constructor
  · intro col hcol
    split_ifs with hc
    · exact hplaced.le previous hmem
    · exact hplaced.le col (hother hcol hc)
  · intro col hcol other hotherMem heq hzero
    by_cases hc : col = hole
    · by_cases ho : other = hole
      · rw [hc, ho]
      · rw [if_pos hc] at heq hzero
        rw [if_neg ho] at heq
        exact absurd (hplaced.inj previous hmem other (hother hotherMem ho) heq hzero).symm
          (Finset.ne_of_mem_erase hotherMem)
    · rw [if_neg hc] at heq hzero
      by_cases ho : other = hole
      · rw [if_pos ho] at heq
        exact absurd (hplaced.inj col (hother hcol hc) previous hmem heq hzero) (Finset.ne_of_mem_erase hcol)
      · rw [if_neg ho] at heq
        exact hplaced.inj col (hother hcol hc) other (hother hotherMem ho) heq hzero
  · intro row hpos hle
    obtain ⟨col, hcol, heq⟩ := hplaced.surj row hpos hle
    by_cases hp : col = previous
    · exact ⟨hole, Finset.mem_erase.mpr ⟨hne.symm, hhole⟩, (if_pos rfl).trans (by rw [← hp, heq])⟩
    · have hcolMem := Finset.mem_erase.mp hcol
      exact ⟨col, Finset.mem_erase.mpr ⟨hp, hcolMem.2⟩, (if_neg hcolMem.1).trans heq⟩

end Placed

/-! ## One round -/

section Round

variable {mostRows mostCols size : ℕ} {cost : ℕ → ℕ → Exact} {a : Assignment} {s : View} {current row : ℕ}

/-- The column that is gone on from is in use. -/
def View.enter (s : View) (current : ℕ) : View :=
  { s with used := fun col ↦ if col = current then true else s.used col }

/-- What is held after a round that found `delta`. -/
noncomputable def View.advanced (s : View) (cost : ℕ → ℕ → Exact) (size current : ℕ) (delta : Exact) : View :=
  ((s.enter current).relaxed cost current size).shifted delta (size + 1)

theorem used_enter {col : ℕ} : (s.enter current).used col = true ↔ col = current ∨ s.used col = true := by
  rw [View.enter]
  by_cases heq : col = current
  · exact iff_of_true (if_pos heq) (.inl heq)
  · exact (iff_of_eq (congrArg (· = true) (if_neg heq))).trans (or_iff_right heq).symm

theorem relaxedSlack_le_step {col : ℕ} (hfree : s.used col = false) :
    s.relaxedSlack cost current col ≤ s.step cost current col := by
  rw [View.relaxedSlack]
  split_ifs with hless
  · exact le_rfl
  · exact not_lt.mp fun h ↦ hless ⟨hfree, h⟩

/-- A round ends at a column that is not in use and has the least slack. -/
theorem round_spec (hshows : Shows mostRows mostCols size cost a s) (hcurrent : current ≤ size)
    (hplaced : Placed (Finset.range (size + 1)) row s.owner) (hrow : row ≤ size)
    (howned : ∀ col ≤ size, (s.enter current).used col = true → s.owner col ≠ 0)
    (hfree : ∃ col, 1 ≤ col ∧ col ≤ size ∧ (s.enter current).used col = false) :
    ∃ a' next delta, round size a current = .ok (a', next) ∧
      Shows mostRows mostCols size cost a' (s.advanced cost size current delta) ∧
      1 ≤ next ∧ next ≤ size ∧ (s.enter current).used next = false ∧
      (s.enter current).relaxedSlack cost current next = delta ∧
      ∀ col, 1 ≤ col → col ≤ size → (s.enter current).used col = false →
        (delta : WithTop Exact) ≤ (s.enter current).relaxedSlack cost current col := by
  have hmem {col : ℕ} (hle : col ≤ size) : col ∈ Finset.range (size + 1) :=
    Finset.mem_range.mpr (Nat.lt_succ_of_le hle)
  have hown : index a.colOwner current = .ok (s.owner current) := hshows.owners.index (Nat.lt_succ_of_le hcurrent)
  have huse := hshows.uses.update (Nat.lt_succ_of_le hcurrent) fun _ ↦ true
  have hentered : Shows mostRows mostCols size cost { a with used := a.used.modify current fun _ ↦ true }
      (s.enter current) :=
    { hshows with
      sized := { hshows.sized with used := (List.length_modify ..).trans hshows.sized.used }
      uses := hshows.uses.modify _ _ }
  have hpos : 1 ≤ s.owner current :=
    Nat.pos_of_ne_zero (howned current hcurrent (used_enter.mpr (.inl rfl)))
  obtain ⟨scanned, least, next, hscan, hscanned, hnext⟩ :=
    scan_spec hentered hpos ((hplaced.le current (hmem hcurrent)).trans hrow)
  obtain ⟨col, hcolPos, hcol, hcolFree⟩ := hfree
  have hfinite : least < ⊤ := ((hnext.le col hcolPos hcol hcolFree).trans (relaxedSlack_le_step hcolFree)).trans_lt
    (WithTop.coe_lt_top _)
  obtain ⟨delta, rfl⟩ := WithTop.ne_top_iff_exists.mp hfinite.ne
  have hapart : ((s.enter current).relaxed cost current size).Apart size := by
    intro col hcol other hother hused _ heq
    exact hplaced.inj col (hmem hcol) other (hmem hother) heq (howned col hcol hused)
  obtain ⟨a', hshift, hshows'⟩ := shift_spec hscanned hapart (fun col hcol ↦ (hplaced.le col (hmem hcol)).trans hrow) delta
  obtain ⟨hnextPos, hnextLe, hnextFree, hleast⟩ := hnext.found.resolve_left hfinite.ne
  refine ⟨a', next, delta, ?_, hshows', hnextPos, hnextLe, hnextFree, hleast.symm, hnext.le⟩
  rw [Assignment.round, huse, ok_bind, hown, ok_bind]
  rw [show (List.range' 1 size).foldlM (relax size (s.owner current) current) _ = _ from hscan, ok_bind]
  change (List.range (size + 1)).foldlM (shift (.exact delta)) scanned >>= _ = _
  rw [hshift, ok_bind]
  rfl

end Round

/-! ## The tree of a search -/

section Tree

variable {size row : ℕ} {cost : ℕ → ℕ → Exact} {rank : ℕ → ℕ} {s : View} {current round : ℕ} {delta : Exact}

/-- The slack of a column that is not in use is its least reduced cost with a row of the tree, which is that of
the column it would be reached from. -/
structure Near (size : ℕ) (cost : ℕ → ℕ → Exact) (s : View) : Prop where
  le : ∀ col, 1 ≤ col → col ≤ size → s.used col = false → ∀ held ≤ size, s.used held = true →
    s.slack col ≤ (reduced cost s.u s.v (s.owner held) col : Exact)
  way : ∀ col, 1 ≤ col → col ≤ size → s.used col = false → s.way col ≤ size ∧ s.used (s.way col) = true ∧
    s.slack col = (reduced cost s.u s.v (s.owner (s.way col)) col : Exact)

/-- No column is in use, and no slack is known. -/
def Untouched (size : ℕ) (s : View) : Prop := ∀ col ≤ size, s.used col = false ∧ s.slack col = ⊤

/-- What holds before a round, the `round`th one.  The tree has as many columns, and `rank` is the round that a
column came into it. -/
structure Tree (size row : ℕ) (cost : ℕ → ℕ → Exact) (rank : ℕ → ℕ) (s : View) (current round : ℕ) : Prop where
  placed : Placed (Finset.range (size + 1)) row s.owner
  root : s.owner 0 = row
  current_le : current ≤ size
  fresh : s.used current = false
  owned : ∀ col ≤ size, s.used col = true → s.owner col ≠ 0
  first : round = 0 → current = 0
  later : 1 ≤ round → s.used 0 = true
  card : ((Finset.range (size + 1)).filter fun col ↦ s.used col = true).card = round
  rank_current : rank current = round
  rank_used : ∀ col ≤ size, s.used col = true → rank col < round
  feasible : ∀ r, 1 ≤ r → r ≤ row → (r = row → 1 ≤ round) → ∀ col, 1 ≤ col → col ≤ size →
    0 ≤ reduced cost s.u s.v r col
  tight : ∀ col, 1 ≤ col → col ≤ size → s.owner col ≠ 0 → reduced cost s.u s.v (s.owner col) col = 0
  edge : ∀ col, 1 ≤ col → col ≤ size → s.used col = true ∨ col = current → s.way col ≤ size ∧
    s.used (s.way col) = true ∧ rank (s.way col) < rank col ∧
    reduced cost s.u s.v (s.owner (s.way col)) col = 0

theorem used_relaxed_false {col : ℕ} (hfree : (s.enter current).used col = false) :
    col ≠ current ∧ s.used col = false := by
  have hnot : ¬(col = current ∨ s.used col = true) := fun h ↦ by
    rw [used_enter.mpr h] at hfree
    cases hfree
  exact ⟨fun h ↦ hnot (.inl h), Bool.eq_false_iff.mpr fun h ↦ hnot (.inr h)⟩

theorem relaxed_slack {col count : ℕ} (hpos : 1 ≤ col) (hle : col ≤ count) :
    (s.relaxed cost current count).slack col = s.relaxedSlack cost current col := if_pos ⟨hpos, hle⟩

theorem relaxed_way {col count : ℕ} (hpos : 1 ≤ col) (hle : col ≤ count) :
    (s.relaxed cost current count).way col = s.relaxedWay cost current col := if_pos ⟨hpos, hle⟩

theorem near_relaxed (hcurrent : current ≤ size) (hnear : Near size cost s ∨ Untouched size s) :
    Near size cost ((s.enter current).relaxed cost current size) where
  le := by
    intro col hpos hle hfree held hheld hused
    rw [relaxed_slack hpos hle]
    rcases used_enter.mp hused with rfl | hbefore
    · exact relaxedSlack_le_step hfree
    · rcases hnear with hnear | huntouched
      · have hslack := hnear.le col hpos hle (used_relaxed_false hfree).2 held hheld hbefore
        rw [View.relaxedSlack]
        split_ifs with hless
        · exact hless.2.le.trans hslack
        · exact hslack
      · rw [(huntouched held hheld).1] at hbefore
        cases hbefore
  way := by
    intro col hpos hle hfree
    rw [relaxed_slack hpos hle, relaxed_way hpos hle, View.relaxedSlack, View.relaxedWay]
    by_cases hless : (s.enter current).step cost current col < (s.enter current).slack col
    · rw [if_pos ⟨hfree, hless⟩, if_pos ⟨hfree, hless⟩]
      exact ⟨hcurrent, used_enter.mpr (.inl rfl), rfl⟩
    · rw [if_neg fun h ↦ hless h.2, if_neg fun h ↦ hless h.2]
      rcases hnear with hnear | huntouched
      · obtain ⟨hway, hused, heq⟩ := hnear.way col hpos hle (used_relaxed_false hfree).2
        exact ⟨hway, used_enter.mpr (.inr hused), heq⟩
      · exact absurd ((WithTop.coe_lt_top _).trans_eq (huntouched col hle).2.symm) hless

theorem heldRow_owner {held : ℕ} (hheld : held ≤ size) (hused : s.used held = true) :
    s.HeldRow (size + 1) (s.owner held) := ⟨held, Nat.lt_succ_of_le hheld, hused, rfl⟩

theorem not_heldCol (count : ℕ) {col : ℕ} (hfree : s.used col = false) : ¬s.HeldCol count col :=
  fun hheld ↦ Bool.false_ne_true (hfree.symm.trans hheld.2)

theorem shifted_slack {col : ℕ} (hle : col ≤ size) (hfree : s.used col = false) :
    (s.shifted delta (size + 1)).slack col = (s.slack col).map (· - delta) := if_pos ⟨Nat.lt_succ_of_le hle, hfree⟩

/-- All slacks go down by what the reduced costs with the rows of the tree go down by. -/
theorem near_shifted (hnear : Near size cost s) (delta : Exact) :
    Near size cost (s.shifted delta (size + 1)) where
  le := by
    intro col hpos hle hfree held hheld hused
    have hslack := hnear.le col hpos hle hfree held hheld hused
    have hreduced := reduced_raise_row cost s.u s.v (s.HeldRow (size + 1)) (s.HeldCol (size + 1)) delta
      (heldRow_owner hheld hused) (not_heldCol (size + 1) hfree)
    have hmono : Monotone fun value : Exact ↦ value - delta := fun _ _ h ↦ sub_le_sub_right h delta
    rw [shifted_slack (s := s) hle hfree]
    exact (hmono.withTop_map hslack).trans (WithTop.coe_le_coe.mpr hreduced.ge)
  way := by
    intro col hpos hle hfree
    obtain ⟨hway, hused, heq⟩ := hnear.way col hpos hle hfree
    have hreduced := reduced_raise_row cost s.u s.v (s.HeldRow (size + 1)) (s.HeldCol (size + 1)) delta
      (heldRow_owner hway hused) (not_heldCol (size + 1) hfree)
    refine ⟨hway, hused, ?_⟩
    rw [shifted_slack (s := s) hle hfree, heq, WithTop.map_coe]
    exact congrArg _ hreduced.symm

/-! ## From one round to the next -/

theorem Tree.mem_columns {col : ℕ} (hle : col ≤ size) : col ∈ Finset.range (size + 1) :=
  Finset.mem_range.mpr (Nat.lt_succ_of_le hle)

theorem Tree.root_entered (htree : Tree size row cost rank s current round) : (s.enter current).used 0 = true := by
  rw [used_enter]
  rcases Nat.eq_zero_or_pos round with hzero | hpos
  · exact .inl (htree.first hzero).symm
  · exact .inr (htree.later hpos)

theorem Tree.owned_entered (htree : Tree size row cost rank s current round) (howner : s.owner current ≠ 0) :
    ∀ col ≤ size, (s.enter current).used col = true → s.owner col ≠ 0 := by
  intro col hle hused
  rcases used_enter.mp hused with rfl | hbefore
  · exact howner
  · exact htree.owned col hle hbefore

theorem Tree.card_entered (htree : Tree size row cost rank s current round) :
    ((Finset.range (size + 1)).filter fun col ↦ (s.enter current).used col = true).card = round + 1 := by
  have hinsert : (Finset.range (size + 1)).filter (fun col ↦ (s.enter current).used col = true) =
      insert current ((Finset.range (size + 1)).filter fun col ↦ s.used col = true) := by
    ext col
    rw [Finset.mem_filter, Finset.mem_insert, Finset.mem_filter, used_enter]
    constructor
    · intro ⟨hmem, hor⟩
      exact hor.imp id fun h ↦ ⟨hmem, h⟩
    · rintro (rfl | ⟨hmem, hused⟩)
      · exact ⟨mem_columns htree.current_le, .inl rfl⟩
      · exact ⟨hmem, .inr hused⟩
  have hnot : current ∉ (Finset.range (size + 1)).filter fun col ↦ s.used col = true := by
    intro hmem
    exact Bool.false_ne_true (htree.fresh.symm.trans (Finset.mem_filter.mp hmem).2)
  rw [hinsert, Finset.card_insert_of_notMem hnot, htree.card]

/-- A search that goes on has fewer columns than there are rows placed. -/
theorem Tree.round_lt (htree : Tree size row cost rank s current round) (howner : s.owner current ≠ 0) :
    round < row := by
  have hcard := htree.placed.card_le (Finset.filter_subset (fun col ↦ (s.enter current).used col = true) _)
    fun col hcol ↦ htree.owned_entered howner col
      (Nat.lt_succ_iff.mp (Finset.mem_range.mp (Finset.mem_filter.mp hcol).1)) (Finset.mem_filter.mp hcol).2
  rw [htree.card_entered] at hcard
  exact hcard

theorem Tree.exists_free (htree : Tree size row cost rank s current round) (howner : s.owner current ≠ 0)
    (hrow : row ≤ size) : ∃ col, 1 ≤ col ∧ col ≤ size ∧ (s.enter current).used col = false := by
  have hround := htree.round_lt howner
  have hlt : ((Finset.range (size + 1)).filter fun col ↦ (s.enter current).used col = true).card <
      (Finset.range (size + 1)).card := by
    rw [htree.card_entered, Finset.card_range]
    omega
  obtain ⟨col, hcol, hnot⟩ := Finset.exists_mem_notMem_of_card_lt_card hlt
  have hfree : ¬(s.enter current).used col = true := fun h ↦ hnot (Finset.mem_filter.mpr ⟨hcol, h⟩)
  refine ⟨col, Nat.pos_of_ne_zero ?_, Nat.lt_succ_iff.mp (Finset.mem_range.mp hcol), Bool.eq_false_iff.mpr hfree⟩
  rintro rfl
  exact hfree htree.root_entered

/-- A column other than the root is in use from the second round on only. -/
theorem Tree.round_pos (htree : Tree size row cost rank s current round) {col : ℕ} (hpos : 1 ≤ col)
    (hle : col ≤ size) (hused : (s.enter current).used col = true) : 1 ≤ round := by
  by_contra hzero
  rcases used_enter.mp hused with rfl | hbefore
  · have hroot := htree.first (by omega)
    omega
  · have hlt := htree.rank_used col hle hbefore
    omega

/-- A row that is placed is raised when its column is lowered. -/
theorem Tree.heldRow_iff (htree : Tree size row cost rank s current round) {col : ℕ} (hle : col ≤ size)
    (howned : s.owner col ≠ 0) :
    (s.enter current).HeldRow (size + 1) (s.owner col) ↔ (s.enter current).HeldCol (size + 1) col := by
  constructor
  · intro ⟨held, hlt, hused, heq⟩
    have hsame : col = held :=
      htree.placed.inj col (mem_columns hle) held (Finset.mem_range.mpr hlt) heq.symm howned
    rw [hsame]
    exact ⟨hlt, hused⟩
  · exact fun ⟨_, hused⟩ ↦ heldRow_owner (s := s.enter current) hle hused

section Advance

variable {next : ℕ}

/-- What a round has found: the least slack and its column. -/
structure Found (size : ℕ) (cost : ℕ → ℕ → Exact) (s : View) (next : ℕ) (delta : Exact) : Prop where
  pos : 1 ≤ next
  le : next ≤ size
  free : s.used next = false
  slack : s.slack next = delta
  least : ∀ col, 1 ≤ col → col ≤ size → s.used col = false → (delta : WithTop Exact) ≤ s.slack col

theorem Found.le_reduced (hfound : Found size cost s next delta) (hnear : Near size cost s) {r col : ℕ}
    (hheld : s.HeldRow (size + 1) r) (hpos : 1 ≤ col) (hle : col ≤ size) (hfree : s.used col = false) :
    delta ≤ reduced cost s.u s.v r col := by
  obtain ⟨held, hlt, hused, rfl⟩ := hheld
  exact WithTop.coe_le_coe.mp ((hfound.least col hpos hle hfree).trans
    (hnear.le col hpos hle hfree held (Nat.lt_succ_iff.mp hlt) hused))

theorem Found.eq_reduced (hfound : Found size cost s next delta) (hnear : Near size cost s) :
    reduced cost s.u s.v (s.owner (s.way next)) next = delta := by
  obtain ⟨_, _, heq⟩ := hnear.way next hfound.pos hfound.le hfound.free
  exact WithTop.coe_inj.mp (heq.symm.trans hfound.slack)

end Advance

section Advance

variable {next : ℕ} (htree : Tree size row cost rank s current round)
  (hnear : Near size cost ((s.enter current).relaxed cost current size))
  (hfound : Found size cost ((s.enter current).relaxed cost current size) next delta)

include htree hnear hfound

/-- From the second round on, potentials of rows only go up. -/
theorem Tree.delta_nonneg (hround : 1 ≤ round) (howner : s.owner current ≠ 0) : 0 ≤ delta := by
  obtain ⟨hway, hused, _⟩ := hnear.way next hfound.pos hfound.le hfound.free
  have howned := htree.owned_entered howner _ hway hused
  have hle := htree.placed.le _ (mem_columns hway)
  have hpos := htree.feasible _ (Nat.pos_of_ne_zero howned) hle (fun _ ↦ hround) next hfound.pos hfound.le
  exact hpos.trans_eq (hfound.eq_reduced hnear)

theorem Tree.feasible_advanced (howner : s.owner current ≠ 0) {r col : ℕ} (hpos : 1 ≤ r) (hrow : r ≤ row)
    (hcolPos : 1 ≤ col) (hcol : col ≤ size) :
    0 ≤ reduced cost (s.advanced cost size current delta).u (s.advanced cost size current delta).v r col := by
  have hbefore (hplaced : r = row → 1 ≤ round) : 0 ≤ reduced cost s.u s.v r col :=
    htree.feasible r hpos hrow hplaced col hcolPos hcol
  by_cases hheldCol : (s.enter current).HeldCol (size + 1) col
  · have hround := htree.round_pos hcolPos hcol hheldCol.2
    by_cases hheldRow : (s.enter current).HeldRow (size + 1) r
    · refine (hbefore fun _ ↦ hround).trans_eq ?_
      exact (reduced_raise_of_iff cost s.u s.v _ _ delta (iff_of_true hheldRow hheldCol)).symm
    · refine (add_nonneg (hbefore fun _ ↦ hround) (htree.delta_nonneg hnear hfound hround howner)).trans_eq ?_
      exact (reduced_raise_col cost s.u s.v _ _ delta hheldRow hheldCol).symm
  · have hfree : (s.enter current).used col = false :=
      Bool.eq_false_iff.mpr fun h ↦ hheldCol ⟨Nat.lt_succ_of_le hcol, h⟩
    by_cases hheldRow : (s.enter current).HeldRow (size + 1) r
    · refine (sub_nonneg.mpr (hfound.le_reduced hnear hheldRow hcolPos hcol hfree)).trans_eq ?_
      exact (reduced_raise_row cost s.u s.v _ _ delta hheldRow hheldCol).symm
    · -- The row that is being placed belongs to the root.
      have hne : r ≠ row := by
        rintro rfl
        exact hheldRow ⟨0, Nat.succ_pos size, htree.root_entered, htree.root⟩
      refine (hbefore fun h ↦ absurd h hne).trans_eq ?_
      exact (reduced_raise_of_iff cost s.u s.v _ _ delta (iff_of_false hheldRow hheldCol)).symm

omit hnear hfound in
theorem Tree.tight_advanced {col : ℕ} (hpos : 1 ≤ col) (hle : col ≤ size) (howned : s.owner col ≠ 0) :
    reduced cost (s.advanced cost size current delta).u (s.advanced cost size current delta).v (s.owner col) col =
      0 := by
  refine Eq.trans ?_ (htree.tight col hpos hle howned)
  exact reduced_raise_of_iff cost s.u s.v _ _ delta (htree.heldRow_iff hle howned)

/-- The edges of the tree stay tight, and so is the edge to the column that was found. -/
theorem Tree.edge_advanced {col : ℕ} (hpos : 1 ≤ col) (hle : col ≤ size)
    (hcol : (s.enter current).used col = true ∨ col = next) {way : ℕ}
    (hway : (s.enter current).relaxedWay cost current col = way) :
    way ≤ size ∧ (s.enter current).used way = true ∧
      (if way = next then round + 1 else rank way) < (if col = next then round + 1 else rank col) ∧
      reduced cost (s.advanced cost size current delta).u (s.advanced cost size current delta).v
        (s.owner way) col = 0 := by
  have hne {held : ℕ} (hused : (s.enter current).used held = true) : held ≠ next := by
    rintro rfl
    exact Bool.false_ne_true (hfound.free.symm.trans hused)
  by_cases hnext : col = next
  · obtain ⟨hwayLe, hused, -⟩ := hnear.way next hfound.pos hfound.le hfound.free
    have hreduced := hfound.eq_reduced hnear
    rw [relaxed_way hfound.pos hfound.le, ← hnext, hway] at hwayLe hused hreduced
    refine ⟨hwayLe, hused, ?_, ?_⟩
    · rw [if_neg (hne hused), if_pos hnext]
      rcases used_enter.mp hused with rfl | hbefore
      · exact htree.rank_current.trans_lt (Nat.lt_succ_self round)
      · exact (htree.rank_used way hwayLe hbefore).trans (Nat.lt_succ_self round)
    · have hfree : (s.enter current).used col = false := by
        rw [hnext]
        exact hfound.free
      refine (reduced_raise_row cost s.u s.v _ _ delta (heldRow_owner (s := s.enter current) hwayLe hused)
        (not_heldCol (size + 1) hfree)).trans ?_
      exact sub_eq_zero.mpr hreduced
  · have hused := hcol.resolve_right hnext
    have hsame : way = s.way col := by
      rw [← hway, View.relaxedWay, hused]
      exact if_neg fun h ↦ Bool.noConfusion h.1
    obtain ⟨hwayLe, hbefore, hrank, hreduced⟩ := htree.edge col hpos hle (used_enter.mp hused).symm
    rw [← hsame] at hwayLe hbefore hrank hreduced
    have hwayUsed : (s.enter current).used way = true := used_enter.mpr (.inr hbefore)
    refine ⟨hwayLe, hwayUsed, ?_, ?_⟩
    · rw [if_neg (hne hwayUsed), if_neg hnext]
      exact hrank
    · refine (reduced_raise_of_iff cost s.u s.v _ _ delta (iff_of_true ?_ ?_)).trans hreduced
      · exact heldRow_owner (s := s.enter current) hwayLe hwayUsed
      · exact ⟨Nat.lt_succ_of_le hle, hused⟩

theorem Tree.advance (howner : s.owner current ≠ 0) :
    Tree size row cost (fun col ↦ if col = next then round + 1 else rank col)
      (s.advanced cost size current delta) next (round + 1) where
  placed := htree.placed
  root := htree.root
  current_le := hfound.le
  fresh := hfound.free
  owned := htree.owned_entered howner
  first := fun h ↦ absurd h (Nat.succ_ne_zero round)
  later := fun _ ↦ htree.root_entered
  card := htree.card_entered
  rank_current := if_pos rfl
  rank_used := by
    intro col hle hused
    have hne : col ≠ next := by
      rintro rfl
      exact Bool.false_ne_true (hfound.free.symm.trans hused)
    rw [if_neg hne]
    rcases used_enter.mp hused with rfl | hbefore
    · exact htree.rank_current.trans_lt (Nat.lt_succ_self round)
    · exact (htree.rank_used col hle hbefore).trans (Nat.lt_succ_self round)
  feasible := fun r hpos hle _ col hcolPos hcol ↦
    htree.feasible_advanced hnear hfound howner hpos hle hcolPos hcol
  tight := fun col hpos hle howned ↦ htree.tight_advanced hpos hle howned
  edge := fun col hpos hle hcol ↦
    htree.edge_advanced hnear hfound hpos hle hcol (relaxed_way hpos hle).symm

end Advance

end Tree

/-! ## A whole search -/

section Search

variable {mostRows mostCols size row : ℕ} {cost : ℕ → ℕ → Exact}

theorem searchFrom_spec (hrow : row ≤ size) (rounds : ℕ) {a : Assignment} {s : View} {rank : ℕ → ℕ}
    {current round : ℕ} (hshows : Shows mostRows mostCols size cost a s)
    (htree : Tree size row cost rank s current round) (howner : s.owner current ≠ 0)
    (hnear : Near size cost s ∨ Untouched size s) (hrounds : row < rounds + round) :
    ∃ a' free s' rank' last, searchFrom size rounds a current = .ok (a', free) ∧
      Shows mostRows mostCols size cost a' s' ∧ Tree size row cost rank' s' free last ∧
      s'.owner free = 0 ∧ 1 ≤ last := by
  induction rounds generalizing a s rank current round with
  | zero =>
    have hround := htree.round_lt howner
    omega
  | succ rounds ih =>
    have hnear' := near_relaxed htree.current_le hnear
    obtain ⟨a', next, delta, hround, hshows', hpos, hle, hfree, hslack, hleast⟩ :=
      round_spec hshows htree.current_le htree.placed hrow (htree.owned_entered howner)
        (htree.exists_free howner hrow)
    have hfound : Found size cost ((s.enter current).relaxed cost current size) next delta := {
      pos := hpos
      le := hle
      free := hfree
      slack := (relaxed_slack hpos hle).trans hslack
      least := fun col hcolPos hcol hcolFree ↦
        (hleast col hcolPos hcol hcolFree).trans_eq (relaxed_slack hcolPos hcol).symm }
    have htree' := htree.advance hnear' hfound howner
    have hown : index a'.colOwner next = .ok (s.owner next) := hshows'.owners.index (Nat.lt_succ_of_le hle)
    rw [searchFrom, hround, ok_bind]
    change ∃ a'' free s' rank' last, (do
      if (← index a'.colOwner next) = 0 then return (a', next) else searchFrom size rounds a' next) = _ ∧ _
    rw [hown, ok_bind]
    by_cases hzero : s.owner next = 0
    · rw [if_pos hzero]
      exact ⟨a', next, _, _, _, rfl, hshows', htree', hzero, Nat.succ_pos round⟩
    · rw [if_neg hzero]
      exact ih hshows' htree' hzero (.inl (near_shifted hnear' delta)) (by omega)

/-! ## The walk back -/

/-- What holds on the way back: all columns but the one reached have rows at reduced cost zero. -/
structure Walk (size row : ℕ) (cost : ℕ → ℕ → Exact) (rank : ℕ → ℕ) (s : View) (owner : ℕ → ℕ) (current : ℕ) :
    Prop where
  placed : Placed ((Finset.range (size + 1)).erase current) row owner
  tight : ∀ col, 1 ≤ col → col ≤ size → col ≠ current → owner col ≠ 0 → reduced cost s.u s.v (owner col) col = 0
  kept : ∀ col ≤ size, rank col < rank current → owner col = s.owner col

theorem augmentFrom_spec {s : View} {rank : ℕ → ℕ} {free last : ℕ} (htree : Tree size row cost rank s free last)
    (rounds : ℕ) {a : Assignment} {owner : ℕ → ℕ} {current : ℕ}
    (hshows : Shows mostRows mostCols size cost a { s with owner := owner }) (hcurrent : current ≤ size)
    (hmember : s.used current = true ∨ current = free) (hwalk : Walk size row cost rank s owner current)
    (hrounds : rank current < rounds) :
    ∃ a' owner', augmentFrom rounds a current = .ok a' ∧
      Shows mostRows mostCols size cost a' { s with owner := owner' } ∧ Walk size row cost rank s owner' 0 := by
  induction rounds generalizing a owner current with
  | zero => exact absurd hrounds (Nat.not_lt_zero _)
  | succ rounds ih =>
    rw [augmentFrom]
    by_cases hzero : current = 0
    · rw [if_pos hzero]
      subst hzero
      exact ⟨a, owner, rfl, hshows, hwalk⟩
    · rw [if_neg hzero]
      obtain ⟨hway, hused, hrank, hreduced⟩ := htree.edge current (Nat.pos_of_ne_zero hzero) hcurrent hmember
      have hne : s.way current ≠ current := fun h ↦ by
        rw [h] at hrank
        exact lt_irrefl _ hrank
      have hkept := hwalk.kept (s.way current) hway hrank
      have hwayIndex : index a.way current = .ok (s.way current) := hshows.ways.index (Nat.lt_succ_of_le hcurrent)
      have hown : index a.colOwner (s.way current) = .ok (owner (s.way current)) :=
        hshows.owners.index (Nat.lt_succ_of_le hway)
      have hput := hshows.owners.update (Nat.lt_succ_of_le hcurrent) fun _ ↦ owner (s.way current)
      have hshows' : Shows mostRows mostCols size cost
          { a with colOwner := a.colOwner.modify current fun _ ↦ owner (s.way current) }
          { s with owner := fun col ↦ if col = current then owner (s.way current) else owner col } :=
        { hshows with
          sized := { hshows.sized with colOwner := (List.length_modify ..).trans hshows.sized.colOwner }
          owners := hshows.owners.modify _ _ }
      have hwalk' : Walk size row cost rank s
          (fun col ↦ if col = current then owner (s.way current) else owner col) (s.way current) := {
        placed := hwalk.placed.move (Tree.mem_columns hcurrent) (Tree.mem_columns hway) hne
        tight := by
          intro col hpos hle hcol howned
          by_cases heq : col = current
          · subst heq
            rw [if_pos rfl, hkept]
            exact hreduced
          · rw [if_neg heq] at howned ⊢
            exact hwalk.tight col hpos hle heq howned
        kept := by
          intro col hle hlt
          have hcol : col ≠ current := fun h ↦ by
            rw [h] at hlt
            exact absurd hrank hlt.not_gt
          rw [if_neg hcol]
          exact hwalk.kept col hle (hlt.trans hrank) }
      obtain ⟨a', owner', hrun, hdone⟩ := ih hshows' hway (.inl hused) hwalk' (by omega)
      refine ⟨a', owner', ?_, hdone⟩
      rw [hwayIndex, ok_bind, hown, ok_bind, hput, ok_bind]
      exact hrun

end Search

end Sdrmm.Assign
