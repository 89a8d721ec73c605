import Mathlib.Algebra.Order.Monoid.Prod
import Mathlib.Order.WithBot
import Sdrmm.Dsp.Assign
import Sdrmm.Lib.Potentials

/-!
# The loops of a search

Costs that are finite are pairs of rational numbers in lexicographic order.  A `View` is what the buffers hold
for the columns `0..=size`, and the loops of a round change it as `View.relaxed` and `View.shifted` say, without
reading outside a buffer.
-/

namespace Sdrmm.Assign

open Lib.Checked Lib.Potentials Assignment

/-! ## Finite costs -/

/-- How many pairs are forbidden, then the total. -/
abbrev Exact : Type := ℚ ×ₗ ℚ

namespace Cost

def exact (value : Exact) : Cost := ⟨.finite (ofLex value).1, .finite (ofLex value).2⟩

def bounded (value : WithTop Exact) : Cost := value.recTopCoe UNBOUNDED exact

@[simp] theorem bounded_top : bounded ⊤ = UNBOUNDED := rfl

@[simp] theorem bounded_coe (value : Exact) : bounded (value : WithTop Exact) = exact value := rfl

theorem exact_add (a b : Exact) : exact a + exact b = exact (a + b) := rfl

theorem exact_sub (a b : Exact) : exact a - exact b = exact (a - b) := by
  change Cost.mk (.finite _) (.finite _) = Cost.mk (.finite _) (.finite _)
  rw [← sub_eq_add_neg, ← sub_eq_add_neg]
  rfl

theorem bounded_sub (a : WithTop Exact) (b : Exact) : bounded a - exact b = bounded (a.map (· - b)) := by
  cases a with
  | top => rfl
  | coe value =>
    rw [WithTop.map_coe]
    exact exact_sub value b

theorem exact_less_exact (a b : Exact) : (exact a).less (exact b) = true ↔ a < b := by
  have hfirst : (exact a).forbidden.partialCmp (exact b).forbidden =
      some (compare (ofLex a).1 (ofLex b).1) := rfl
  have hsecond : (exact a).total.partialCmp (exact b).total =
      some (compare (ofLex a).2 (ofLex b).2) := rfl
  rw [Prod.Lex.lt_iff, less, decide_eq_true_iff, partialCmp, hfirst, hsecond]
  rcases lt_trichotomy (ofLex a).1 (ofLex b).1 with hlt | heq | hgt
  · rw [compare_lt_iff_lt.mpr hlt]
    exact iff_of_true rfl (.inl hlt)
  · rw [compare_eq_iff_eq.mpr heq]
    simp only [Option.some.injEq, compare_lt_iff_lt, heq, true_and, lt_self_iff_false, false_or]
  · rw [compare_gt_iff_gt.mpr hgt]
    have hne : ¬(ofLex a).1 < (ofLex b).1 := hgt.not_gt
    have hne' : ¬(ofLex a).1 = (ofLex b).1 := hgt.ne'
    simp only [hne, hne', false_and, or_false, iff_false]
    exact fun h ↦ Ordering.noConfusion (Option.some.inj h)

theorem bounded_less (a b : WithTop Exact) : (bounded a).less (bounded b) = true ↔ a < b := by
  cases a with
  | top => cases b with
    | top => exact iff_of_false (by decide) (lt_irrefl _)
    | coe b => exact iff_of_false Bool.false_ne_true not_top_lt
  | coe a => cases b with
    | top => exact iff_of_true rfl (WithTop.coe_lt_top a)
    | coe b => exact (exact_less_exact a b).trans WithTop.coe_lt_coe.symm

theorem ite_less {α : Type} (a b : WithTop Exact) (x y : α) :
    (if (bounded a).less (bounded b) = true then x else y) = if a < b then x else y :=
  if_congr (bounded_less a b) rfl rfl

end Cost

/-! ## What the buffers hold -/

/-- The lengths of the buffers of an object. -/
structure Sized (mostRows mostCols : ℕ) (a : Assignment) : Prop where
  maxRows : a.maxRows = mostRows
  maxCols : a.maxCols = mostCols
  cost : a.cost.length = max mostRows mostCols * max mostRows mostCols
  rowPotential : a.rowPotential.length = max mostRows mostCols + 1
  colPotential : a.colPotential.length = max mostRows mostCols + 1
  colOwner : a.colOwner.length = max mostRows mostCols + 1
  way : a.way.length = max mostRows mostCols + 1
  slack : a.slack.length = max mostRows mostCols + 1
  used : a.used.length = max mostRows mostCols + 1

structure View where
  u : ℕ → Exact
  v : ℕ → Exact
  owner : ℕ → ℕ
  way : ℕ → ℕ
  slack : ℕ → WithTop Exact
  used : ℕ → Bool

/-- The buffers that are kept from one search to the next. -/
structure Ready (mostRows mostCols size : ℕ) (cost : ℕ → ℕ → Exact) (a : Assignment) (s : View) : Prop where
  sized : Sized mostRows mostCols a
  cells : ∀ row col, 1 ≤ row → row ≤ size → 1 ≤ col → col ≤ size →
    a.cost[(row - 1) * size + col - 1]? = some (.exact (cost row col))
  rows : Holds a.rowPotential (size + 1) fun row ↦ .exact (s.u row)
  cols : Holds a.colPotential (size + 1) fun col ↦ .exact (s.v col)
  owners : Holds a.colOwner (size + 1) s.owner
  ways : Holds a.way (size + 1) s.way

structure Shows (mostRows mostCols size : ℕ) (cost : ℕ → ℕ → Exact) (a : Assignment) (s : View) : Prop
    extends Ready mostRows mostCols size cost a s where
  slacks : Holds a.slack (size + 1) fun col ↦ .bounded (s.slack col)
  uses : Holds a.used (size + 1) s.used

section Relax

variable {mostRows mostCols size : ℕ} {cost : ℕ → ℕ → Exact} {a : Assignment} {s : View} {current n : ℕ}

/-- The reduced cost of a column with the row of the column that is gone on from. -/
def View.step (s : View) (cost : ℕ → ℕ → Exact) (current col : ℕ) : WithTop Exact :=
  (reduced cost s.u s.v (s.owner current) col : Exact)

def View.relaxedSlack (s : View) (cost : ℕ → ℕ → Exact) (current col : ℕ) : WithTop Exact :=
  if s.used col = false ∧ s.step cost current col < s.slack col then s.step cost current col else s.slack col

def View.relaxedWay (s : View) (cost : ℕ → ℕ → Exact) (current col : ℕ) : ℕ :=
  if s.used col = false ∧ s.step cost current col < s.slack col then current else s.way col

/-- What is held when the columns up to `count` have been scanned. -/
def View.relaxed (s : View) (cost : ℕ → ℕ → Exact) (current count : ℕ) : View :=
  { s with
    slack := fun col ↦ if 1 ≤ col ∧ col ≤ count then s.relaxedSlack cost current col else s.slack col
    way := fun col ↦ if 1 ≤ col ∧ col ≤ count then s.relaxedWay cost current col else s.way col }

/-- The least slack of the columns up to `count` that are not in use, and its column. -/
structure IsNext (s : View) (slack : ℕ → WithTop Exact) (count : ℕ) (delta : WithTop Exact) (next : ℕ) : Prop where
  le : ∀ col, 1 ≤ col → col ≤ count → s.used col = false → delta ≤ slack col
  found : delta = ⊤ ∨ 1 ≤ next ∧ next ≤ count ∧ s.used next = false ∧ delta = slack next

theorem isNext_zero (s : View) (slack : ℕ → WithTop Exact) : IsNext s slack 0 ⊤ 0 where
  le := fun col hpos hle ↦ absurd (hpos.trans hle) (by decide)
  found := .inl rfl

theorem IsNext.skip {slack : ℕ → WithTop Exact} {count next : ℕ} {delta : WithTop Exact}
    (hnext : IsNext s slack count delta next) (hused : s.used (1 + count) = true) :
    IsNext s slack (count + 1) delta next where
  le := by
    intro col hpos hle hfree
    rcases Nat.lt_or_ge count col with hlt | hge
    · rw [show col = 1 + count by omega, hused] at hfree
      cases hfree
    · exact hnext.le col hpos hge hfree
  found := hnext.found.imp id fun ⟨hpos, hle, hfree, heq⟩ ↦ ⟨hpos, by omega, hfree, heq⟩

theorem IsNext.take {slack : ℕ → WithTop Exact} {count next : ℕ} {delta : WithTop Exact}
    (hnext : IsNext s slack count delta next) (hfree : s.used (1 + count) = false) :
    IsNext s slack (count + 1) (if slack (1 + count) < delta then slack (1 + count) else delta)
      (if slack (1 + count) < delta then 1 + count else next) where
  le := by
    intro col hpos hle hcol
    rcases Nat.lt_or_ge count col with hlt | hge
    · rw [show col = 1 + count by omega]
      split_ifs with hless
      · exact le_rfl
      · exact not_lt.mp hless
    · split_ifs with hless
      · exact hless.le.trans (hnext.le col hpos hge hcol)
      · exact hnext.le col hpos hge hcol
  found := by
    split_ifs with hless
    · exact .inr ⟨by omega, by omega, hfree, rfl⟩
    · exact hnext.found.imp id fun ⟨hpos, hle, hcol, heq⟩ ↦ ⟨hpos, by omega, hcol, heq⟩

theorem relaxed_zero : s.relaxed cost current 0 = s := by
  have hnone : ∀ col, ¬(1 ≤ col ∧ col ≤ 0) := fun col h ↦ absurd (h.1.trans h.2) (by decide)
  simp only [View.relaxed, hnone, if_false]

/-- A column in use is passed over. -/
theorem relax_used (hshows : Shows mostRows mostCols size cost a (s.relaxed cost current n)) (hn : n < size)
    (hused : s.used (1 + n) = true) (owner next : ℕ) (delta : Cost) :
    relax size owner current (a, delta, next) (1 + n) = .ok (a, delta, next) := by
  rw [relax, hshows.uses.index (show 1 + n < size + 1 by omega)]
  change (if s.used (1 + n) = true then _ else _) = _
  rw [hused]
  rfl

theorem relaxed_slack_of_gt {col : ℕ} (hgt : n < col) : (s.relaxed cost current n).slack col = s.slack col :=
  if_neg fun h ↦ absurd h.2 (not_le.mpr hgt)

theorem relaxed_way_of_gt {col : ℕ} (hgt : n < col) : (s.relaxed cost current n).way col = s.way col :=
  if_neg fun h ↦ absurd h.2 (not_le.mpr hgt)

/-- Scanning one column more changes the entries of that column. -/
theorem relaxed_succ (s : View) (cost : ℕ → ℕ → Exact) (current n : ℕ) :
    s.relaxed cost current (n + 1) =
      { s.relaxed cost current n with
        slack := fun col ↦
          if col = 1 + n then s.relaxedSlack cost current col else (s.relaxed cost current n).slack col
        way := fun col ↦
          if col = 1 + n then s.relaxedWay cost current col else (s.relaxed cost current n).way col } := by
  have hsplit : ∀ col, (1 ≤ col ∧ col ≤ n + 1) ↔ (col = 1 + n ∨ 1 ≤ col ∧ col ≤ n) := fun col ↦ by omega
  rw [View.relaxed, View.mk.injEq]
  refine ⟨rfl, rfl, rfl, ?_, ?_, rfl⟩
  all_goals
    funext col
    simp only [hsplit, View.relaxed]
    split_ifs <;> first | rfl | omega

theorem relaxed_succ_of_used (hused : s.used (1 + n) = true) :
    s.relaxed cost current (n + 1) = s.relaxed cost current n := by
  have hheld : ¬(s.used (1 + n) = false ∧ s.step cost current (1 + n) < s.slack (1 + n)) := by
    rw [hused]
    exact fun h ↦ Bool.noConfusion h.1
  have hslack : s.relaxedSlack cost current (1 + n) = (s.relaxed cost current n).slack (1 + n) :=
    (if_neg hheld).trans (relaxed_slack_of_gt (by omega)).symm
  have hway : s.relaxedWay cost current (1 + n) = (s.relaxed cost current n).way (1 + n) :=
    (if_neg hheld).trans (relaxed_way_of_gt (by omega)).symm
  rw [relaxed_succ]
  refine (View.mk.injEq ..).mpr ⟨rfl, rfl, rfl, ?_, ?_, rfl⟩
  · funext col
    by_cases hcol : col = 1 + n
    · subst hcol
      exact (if_pos rfl).trans hway
    · exact if_neg hcol
  · funext col
    by_cases hcol : col = 1 + n
    · subst hcol
      exact (if_pos rfl).trans hslack
    · exact if_neg hcol

theorem Shows.cell (hshows : Shows mostRows mostCols size cost a s) {row col : ℕ} (hpos : 1 ≤ row)
    (hrow : row ≤ size) (hcolPos : 1 ≤ col) (hcol : col ≤ size) :
    index a.cost ((row - 1) * size + col - 1) = .ok (.exact (cost row col)) := by
  rw [index, hshows.cells row col hpos hrow hcolPos hcol]

theorem Shows.write (hshows : Shows mostRows mostCols size cost a s) {slack : List Cost} {way : List ℕ}
    {slackAt : ℕ → WithTop Exact} {wayAt : ℕ → ℕ} (hslack : Holds slack (size + 1) fun col ↦ .bounded (slackAt col))
    (hway : Holds way (size + 1) wayAt) (hslackLength : slack.length = a.slack.length)
    (hwayLength : way.length = a.way.length) :
    Shows mostRows mostCols size cost { a with slack := slack, way := way }
      { s with slack := slackAt, way := wayAt } where
  sized := { hshows.sized with
    slack := hslackLength.trans hshows.sized.slack
    way := hwayLength.trans hshows.sized.way }
  cells := hshows.cells
  rows := hshows.rows
  cols := hshows.cols
  owners := hshows.owners
  ways := hway
  slacks := hslack
  uses := hshows.uses

/-- A column that is not in use may come nearer. -/
theorem relax_free (hshows : Shows mostRows mostCols size cost a (s.relaxed cost current n)) (hn : n < size)
    (hfree : s.used (1 + n) = false) (hpos : 1 ≤ s.owner current) (howner : s.owner current ≤ size)
    (delta : WithTop Exact) (next : ℕ) :
    ∃ a', relax size (s.owner current) current (a, .bounded delta, next) (1 + n) =
        .ok (a', .bounded (if s.relaxedSlack cost current (1 + n) < delta then
            s.relaxedSlack cost current (1 + n) else delta),
          if s.relaxedSlack cost current (1 + n) < delta then 1 + n else next) ∧
      Shows mostRows mostCols size cost a' (s.relaxed cost current (n + 1)) := by
  have hlt : 1 + n < size + 1 := by omega
  have hsub : sub ((s.owner current - 1) * size + (1 + n)) 1 =
      .ok ((s.owner current - 1) * size + (1 + n) - 1) := sub_of_le (by omega)
  have hcell := hshows.cell hpos howner (show 1 ≤ 1 + n by omega) (show 1 + n ≤ size by omega)
  have hreduced : Cost.exact (cost (s.owner current) (1 + n)) - .exact (s.u (s.owner current)) -
      .exact (s.v (1 + n)) = .bounded (s.step cost current (1 + n)) := by
    rw [Cost.exact_sub, Cost.exact_sub]
    rfl
  have hbefore : (s.relaxed cost current n).slack (1 + n) = s.slack (1 + n) := relaxed_slack_of_gt (by omega)
  have huse : index a.used (1 + n) = .ok false :=
    (hshows.uses.index hlt).trans (congrArg Except.ok hfree)
  have hrow : index a.rowPotential (s.owner current) = .ok (.exact (s.u (s.owner current))) :=
    hshows.rows.index (by omega)
  have hcol : index a.colPotential (1 + n) = .ok (.exact (s.v (1 + n))) := hshows.cols.index hlt
  have hslack : index a.slack (1 + n) = .ok (.bounded (s.slack (1 + n))) :=
    (hshows.slacks.index hlt).trans (by rw [hbefore])
  simp only [relax, huse, ok_bind, sub_of_le hpos, hsub, hcell, hrow, hcol, hslack, hreduced,
    Cost.bounded_less]
  have hwritten {slack : List Cost} {way : List ℕ} (hslackAt : Holds slack (size + 1) fun col ↦ .bounded
      (if col = 1 + n then s.relaxedSlack cost current col else (s.relaxed cost current n).slack col))
      (hwayAt : Holds way (size + 1) fun col ↦
        if col = 1 + n then s.relaxedWay cost current col else (s.relaxed cost current n).way col)
      (hslackLength : slack.length = a.slack.length) (hwayLength : way.length = a.way.length) :
      Shows mostRows mostCols size cost { a with slack := slack, way := way } (s.relaxed cost current (n + 1)) := by
    rw [relaxed_succ]
    exact hshows.write hslackAt hwayAt hslackLength hwayLength
  by_cases hnearer : s.step cost current (1 + n) < s.slack (1 + n)
  · have hslackAt := (hshows.slacks.modify (1 + n) fun _ ↦ .bounded (s.step cost current (1 + n))).congr
      (g := fun col ↦ .bounded (if col = 1 + n then s.relaxedSlack cost current col else
        (s.relaxed cost current n).slack col)) (by
        intro col _
        by_cases hcol : col = 1 + n
        · rw [if_pos hcol, if_pos hcol, hcol, View.relaxedSlack, if_pos ⟨hfree, hnearer⟩]
        · rw [if_neg hcol, if_neg hcol])
    have hwayAt := (hshows.ways.modify (1 + n) fun _ ↦ current).congr
      (g := fun col ↦ if col = 1 + n then s.relaxedWay cost current col else
        (s.relaxed cost current n).way col) (by
        intro col _
        by_cases hcol : col = 1 + n
        · rw [if_pos hcol, if_pos hcol, hcol, View.relaxedWay, if_pos ⟨hfree, hnearer⟩]
        · rw [if_neg hcol, if_neg hcol])
    simp only [hnearer, if_true, Bool.false_eq_true, if_false]
    rw [hshows.slacks.update hlt, ok_bind, hshows.ways.update hlt, ok_bind, hslackAt.index hlt, ok_bind,
      if_pos rfl]
    refine ⟨_, ?_, hwritten hslackAt hwayAt (List.length_modify ..) (List.length_modify ..)⟩
    rw [Cost.ite_less]
    split_ifs <;> rfl
  · have hslackAt := hshows.slacks.congr
      (g := fun col ↦ .bounded (if col = 1 + n then s.relaxedSlack cost current col else
        (s.relaxed cost current n).slack col)) (by
        intro col _
        by_cases hcol : col = 1 + n
        · rw [if_pos hcol, hcol, View.relaxedSlack, if_neg (fun h ↦ hnearer h.2), hbefore]
        · rw [if_neg hcol])
    have hwayAt := hshows.ways.congr
      (g := fun col ↦ if col = 1 + n then s.relaxedWay cost current col else
        (s.relaxed cost current n).way col) (by
        intro col _
        by_cases hcol : col = 1 + n
        · rw [if_pos hcol, hcol, View.relaxedWay, if_neg (fun h ↦ hnearer h.2)]
          exact relaxed_way_of_gt (by omega)
        · rw [if_neg hcol])
    simp only [hnearer, if_false, Bool.false_eq_true, pure_bind]
    rw [hslackAt.index hlt, ok_bind, if_pos rfl]
    refine ⟨_, ?_, hwritten hslackAt hwayAt rfl rfl⟩
    rw [Cost.ite_less]
    split_ifs <;> rfl

/-- The scan of all columns finds the least slack and its column. -/
theorem scan_spec (hshows : Shows mostRows mostCols size cost a s) (hpos : 1 ≤ s.owner current)
    (howner : s.owner current ≤ size) :
    ∃ a' delta next, (List.range' 1 size).foldlM (relax size (s.owner current) current) (a, .UNBOUNDED, 0) =
        .ok (a', .bounded delta, next) ∧
      Shows mostRows mostCols size cost a' (s.relaxed cost current size) ∧
      IsNext s (s.relaxedSlack cost current) size delta next := by
  have hrun := exists_foldlM_range' (relax size (s.owner current) current)
    (fun n scan ↦ ∃ delta, scan.2.1 = .bounded delta ∧
      Shows mostRows mostCols size cost scan.1 (s.relaxed cost current n) ∧
      IsNext s (s.relaxedSlack cost current) n delta scan.2.2) 1 size
    (s := (a, .UNBOUNDED, 0))
  obtain ⟨⟨a', value, next⟩, hok, delta, hdelta, hshows', hnext⟩ := hrun (by
      intro n hn ⟨a, value, next⟩ ⟨delta, hdelta, hshows, hnext⟩
      obtain rfl : value = .bounded delta := hdelta
      cases hused : s.used (1 + n) with
      | true =>
        refine ⟨_, relax_used hshows hn hused _ _ _, delta, rfl, ?_, hnext.skip hused⟩
        rwa [relaxed_succ_of_used hused]
      | false =>
        obtain ⟨a', hok, hshows'⟩ := relax_free hshows hn hused hpos howner delta next
        exact ⟨_, hok, _, rfl, hshows', hnext.take hused⟩)
    ⟨⊤, rfl, by rwa [relaxed_zero], isNext_zero s _⟩
  obtain rfl : value = .bounded delta := hdelta
  exact ⟨a', delta, next, hok, hshows', hnext⟩

end Relax

/-! ## The change of potentials -/

section Shift

variable {mostRows mostCols size : ℕ} {cost : ℕ → ℕ → Exact} {a : Assignment} {s : View} {n : ℕ} {delta : Exact}

/-- The row belongs to a column before `count` that is in use. -/
def View.HeldRow (s : View) (count row : ℕ) : Prop := ∃ col, col < count ∧ s.used col = true ∧ s.owner col = row

def View.HeldCol (s : View) (count col : ℕ) : Prop := col < count ∧ s.used col = true

noncomputable instance (s : View) (count : ℕ) : DecidablePred (s.HeldRow count) := fun _ ↦ Classical.dec _

instance (s : View) (count : ℕ) : DecidablePred (s.HeldCol count) := fun _ ↦ inferInstanceAs (Decidable (_ ∧ _))

/-- What is held when the columns before `count` have been shifted. -/
noncomputable def View.shifted (s : View) (delta : Exact) (count : ℕ) : View :=
  { s with
    u := raisedRow s.u (s.HeldRow count) delta
    v := loweredCol s.v (s.HeldCol count) delta
    slack := fun col ↦ if col < count ∧ s.used col = false then (s.slack col).map (· - delta) else s.slack col }

theorem shifted_zero : s.shifted delta 0 = s := by
  rw [View.shifted, View.mk.injEq]
  refine ⟨?_, ?_, rfl, rfl, ?_, rfl⟩
  · funext row
    exact if_neg fun ⟨_, hlt, _⟩ ↦ Nat.not_lt_zero _ hlt
  · funext col
    exact if_neg fun h ↦ Nat.not_lt_zero _ h.1
  · funext col
    exact if_neg fun h ↦ Nat.not_lt_zero _ h.1

theorem heldRow_succ {row : ℕ} :
    s.HeldRow (n + 1) row ↔ s.HeldRow n row ∨ s.used n = true ∧ s.owner n = row := by
  constructor
  · intro ⟨col, hlt, hused, heq⟩
    rcases Nat.lt_succ_iff_lt_or_eq.mp hlt with hless | rfl
    · exact .inl ⟨col, hless, hused, heq⟩
    · exact .inr ⟨hused, heq⟩
  · intro h
    rcases h with ⟨col, hlt, hused, heq⟩ | ⟨hused, heq⟩
    · exact ⟨col, by omega, hused, heq⟩
    · exact ⟨n, by omega, hused, heq⟩

theorem heldCol_succ {col : ℕ} : s.HeldCol (n + 1) col ↔ s.HeldCol n col ∨ s.used n = true ∧ n = col := by
  rw [View.HeldCol, View.HeldCol, Nat.lt_succ_iff_lt_or_eq]
  constructor
  · intro ⟨hlt, hused⟩
    rcases hlt with hless | rfl
    · exact .inl ⟨hless, hused⟩
    · exact .inr ⟨hused, rfl⟩
  · intro h
    rcases h with ⟨hlt, hused⟩ | ⟨hused, rfl⟩
    · exact ⟨.inl hlt, hused⟩
    · exact ⟨.inr rfl, hused⟩

/-- The columns in use belong to different rows. -/
def View.Apart (s : View) (size : ℕ) : Prop :=
  ∀ col ≤ size, ∀ other ≤ size, s.used col = true → s.used other = true → s.owner col = s.owner other → col = other

/-- A column in use and its row. -/
theorem shifted_succ_used (hapart : s.Apart size) (hn : n ≤ size) (hused : s.used n = true) :
    s.shifted delta (n + 1) =
      { s.shifted delta n with
        u := fun row ↦ if row = s.owner n then (s.shifted delta n).u row + delta else (s.shifted delta n).u row
        v := fun col ↦ if col = n then (s.shifted delta n).v col - delta else (s.shifted delta n).v col } := by
  have hrow : ¬s.HeldRow n (s.owner n) := by
    intro ⟨col, hlt, hcol, heq⟩
    exact absurd (hapart col (by omega) n hn hcol hused heq) (by omega)
  have hcol : ¬s.HeldCol n n := fun h ↦ absurd h.1 (lt_irrefl n)
  rw [View.shifted, View.shifted, View.mk.injEq]
  refine ⟨?_, ?_, rfl, rfl, ?_, rfl⟩
  · funext row
    by_cases heq : row = s.owner n
    · subst heq
      rw [if_pos rfl]
      exact (if_pos (heldRow_succ.mpr (.inr ⟨hused, rfl⟩))).trans (congrArg (· + delta) (if_neg hrow).symm)
    · rw [if_neg heq]
      exact if_congr (heldRow_succ.trans (or_iff_left fun h ↦ heq h.2.symm)) rfl rfl
  · funext col
    by_cases heq : col = n
    · subst heq
      rw [if_pos rfl]
      exact (if_pos (heldCol_succ.mpr (.inr ⟨hused, rfl⟩))).trans (congrArg (· - delta) (if_neg hcol).symm)
    · rw [if_neg heq]
      exact if_congr (heldCol_succ.trans (or_iff_left fun h ↦ heq h.2.symm)) rfl rfl
  · funext col
    apply if_congr _ rfl rfl
    constructor
    · intro ⟨hlt, hfree⟩
      have hne : col ≠ n := fun h ↦ by rw [h, hused] at hfree; cases hfree
      exact ⟨by omega, hfree⟩
    · exact fun ⟨hlt, hfree⟩ ↦ ⟨by omega, hfree⟩

/-- A column that is not in use. -/
theorem shifted_succ_free (hfree : s.used n = false) :
    s.shifted delta (n + 1) =
      { s.shifted delta n with
        slack := fun col ↦
          if col = n then ((s.shifted delta n).slack col).map (· - delta) else (s.shifted delta n).slack col } := by
  have hnot : ¬s.used n = true := by
    rw [hfree]
    exact Bool.false_ne_true
  rw [View.shifted, View.shifted, View.mk.injEq]
  refine ⟨?_, ?_, rfl, rfl, ?_, rfl⟩
  · funext row
    exact if_congr (heldRow_succ.trans (or_iff_left fun h ↦ hnot h.1)) rfl rfl
  · funext col
    exact if_congr (heldCol_succ.trans (or_iff_left fun h ↦ hnot h.1)) rfl rfl
  · funext col
    by_cases heq : col = n
    · subst heq
      have hself : ¬(col < col ∧ s.used col = false) := fun h ↦ lt_irrefl col h.1
      rw [if_pos ⟨Nat.lt_succ_self col, hfree⟩, if_pos rfl]
      exact congrArg (WithTop.map (· - delta)) (if_neg hself).symm
    · rw [if_neg heq]
      exact if_congr (and_congr_left fun _ ↦ by omega) rfl rfl

theorem shift_used (hshows : Shows mostRows mostCols size cost a (s.shifted delta n)) (hapart : s.Apart size)
    (hn : n ≤ size) (hused : s.used n = true) (howner : s.owner n ≤ size) :
    ∃ a', shift (.exact delta) a n = .ok a' ∧
      Shows mostRows mostCols size cost a' (s.shifted delta (n + 1)) := by
  have hlt : n < size + 1 := by omega
  have huse : index a.used n = .ok true := (hshows.uses.index hlt).trans (congrArg Except.ok hused)
  have hown : index a.colOwner n = .ok (s.owner n) := hshows.owners.index hlt
  have hrow := hshows.rows.update (show s.owner n < size + 1 by omega) (· + .exact delta)
  have hcol := hshows.cols.update hlt (· - .exact delta)
  refine ⟨_, by simp only [shift, huse, hown, hrow, hcol, ok_bind, if_true]; rfl, ?_⟩
  rw [shifted_succ_used hapart hn hused]
  exact {
    sized := { hshows.sized with
      rowPotential := (List.length_modify ..).trans hshows.sized.rowPotential
      colPotential := (List.length_modify ..).trans hshows.sized.colPotential }
    cells := hshows.cells
    rows := (hshows.rows.modify _ _).congr fun row _ ↦ by
      rw [Cost.exact_add]
      exact (apply_ite Cost.exact _ _ _).symm
    cols := (hshows.cols.modify _ _).congr fun col _ ↦ by
      rw [Cost.exact_sub]
      exact (apply_ite Cost.exact _ _ _).symm
    owners := hshows.owners
    ways := hshows.ways
    slacks := hshows.slacks
    uses := hshows.uses }

theorem shift_free (hshows : Shows mostRows mostCols size cost a (s.shifted delta n)) (hn : n ≤ size)
    (hfree : s.used n = false) :
    ∃ a', shift (.exact delta) a n = .ok a' ∧
      Shows mostRows mostCols size cost a' (s.shifted delta (n + 1)) := by
  have hlt : n < size + 1 := by omega
  have huse : index a.used n = .ok false := (hshows.uses.index hlt).trans (congrArg Except.ok hfree)
  have hslack := hshows.slacks.update hlt (· - .exact delta)
  refine ⟨_, by simp only [shift, huse, hslack, ok_bind, if_false, Bool.false_eq_true]; rfl, ?_⟩
  rw [shifted_succ_free hfree]
  exact {
    sized := { hshows.sized with slack := (List.length_modify ..).trans hshows.sized.slack }
    cells := hshows.cells
    rows := hshows.rows
    cols := hshows.cols
    owners := hshows.owners
    ways := hshows.ways
    slacks := (hshows.slacks.modify _ _).congr fun col _ ↦ by
      rw [Cost.bounded_sub]
      exact (apply_ite Cost.bounded _ _ _).symm
    uses := hshows.uses }

/-- The change of potentials raises the rows of the columns in use and lowers these columns. -/
theorem shift_spec (hshows : Shows mostRows mostCols size cost a s) (hapart : s.Apart size)
    (howner : ∀ col ≤ size, s.owner col ≤ size) (delta : Exact) :
    ∃ a', (List.range (size + 1)).foldlM (shift (.exact delta)) a = .ok a' ∧
      Shows mostRows mostCols size cost a' (s.shifted delta (size + 1)) := by
  apply exists_foldlM_range (shift (.exact delta))
    (fun n a ↦ Shows mostRows mostCols size cost a (s.shifted delta n))
  · intro n hn a hshows
    have hle : n ≤ size := Nat.lt_succ_iff.mp hn
    cases hused : s.used n with
    | true => exact shift_used hshows hapart hle hused (howner n hle)
    | false => exact shift_free hshows hle hused
  · rwa [shifted_zero]

end Shift

end Sdrmm.Assign
