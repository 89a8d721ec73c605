import Sdrmm.Channels.DabFiguresRead
import Sdrmm.Channels.Mot

/-!
# The data field of a block

A block of 32 bytes ends in two bytes of check, and only the 30 before them are its data field.  The walk over
the figures stops where the data field ends, but the length of a figure is held against the end of the block: a
figure that ends in the check reads it.  It does no harm if what the figure tells is held already.
-/

namespace Sdrmm.Dab.Figures

open Lib.Checked (Halt index index_of_lt ok_bind)

/-! ## Figures of a block -/

section Walk

variable (fib : List UInt8) (place : ℕ)

def figureLength : ℕ := (fib.getD place 0 &&& 0x1F).toNat

def figureEnd : ℕ := place + 1 + figureLength fib place

/-- What the figure at a place tells. -/
def toldAt : List Update :=
  figureUpdates (fib.getD place 0 >>> 5) ((fib.drop (place + 1)).take (figureLength fib place))

/-- The walk ends at this place. -/
def Ends : Prop := fib.getD place 0 = endMarker ∨ figureLength fib place = 0

instance : Decidable (Ends fib place) := inferInstanceAs (Decidable (_ ∨ _))

theorem place_lt_figureEnd : place < figureEnd fib place :=
  Nat.lt_of_lt_of_le (Nat.lt_succ_self _) (Nat.le_add_right ..)

end Walk

/-- What the figures tell that lie in the data field. -/
def insideUpdates (fib : List UInt8) (place : ℕ) : List Update :=
  if place < fibBytes - 2 then
    if Ends fib place then []
    else if figureEnd fib place ≤ fibBytes - 2 then toldAt fib place ++ insideUpdates fib (figureEnd fib place)
    else []
  else []
termination_by fibBytes - 2 - place
decreasing_by
  have hlt := place_lt_figureEnd fib place
  omega

/-- What a figure tells that ends in the check. -/
def overhang (fib : List UInt8) (place : ℕ) : List Update :=
  if place < fibBytes - 2 then
    if Ends fib place then []
    else if figureEnd fib place ≤ fibBytes - 2 then overhang fib (figureEnd fib place)
    else if figureEnd fib place ≤ fibBytes then toldAt fib place
    else []
  else []
termination_by fibBytes - 2 - place
decreasing_by
  have hlt := place_lt_figureEnd fib place
  omega

/-- Where the data field ends, or the first figure begins that does not lie in it. -/
def dataEnd (fib : List UInt8) (place : ℕ) : ℕ :=
  if place < fibBytes - 2 then
    if fib.getD place 0 = endMarker then fibBytes - 2
    else if figureEnd fib place ≤ fibBytes - 2 then dataEnd fib (figureEnd fib place)
    else place
  else fibBytes - 2
termination_by fibBytes - 2 - place
decreasing_by
  have hlt := place_lt_figureEnd fib place
  omega

/-- The block with end markers for its check and for the first figure that does not lie in the data field, and
everything behind it. -/
def cleaned (fib : Vector UInt8 fibBytes) : Vector UInt8 fibBytes :=
  Vector.ofFn fun i ↦ if i.val < dataEnd fib.toList 0 then fib[i] else endMarker

section Absorb

variable {fib : List UInt8}

theorem absorbFrom_eq (hfib : fib.length = fibBytes) (ensemble : Ensemble) (place : ℕ) :
    Ensemble.absorbFrom fib ensemble place =
      .ok (ensemble.after (insideUpdates fib place ++ overhang fib place)) := by
  fun_induction insideUpdates fib place generalizing ensemble with
  | case1 place hplace hends =>
    have hlt : place < fib.length := by omega
    rw [Ensemble.absorbFrom, overhang, if_pos hplace, if_pos hplace, if_pos hends, index_of_lt hlt 0, ok_bind]
    rcases Decidable.em (fib.getD place 0 = endMarker) with hmarker | hheader
    · rw [if_pos hmarker]
      rfl
    · rw [if_neg hheader]
      exact if_pos (Or.inr (hends.resolve_left hheader))
  | case2 place hplace hends hinside ih =>
    have hlt : place < fib.length := by omega
    obtain ⟨hheader, hlength⟩ := not_or.mp hends
    have hwhole : ¬(fib.length < figureEnd fib place ∨ figureLength fib place = 0) :=
      not_or.mpr ⟨by omega, hlength⟩
    rw [Ensemble.absorbFrom, overhang, if_pos hplace, if_pos hplace, if_neg hends, if_pos hinside, index_of_lt hlt 0,
      ok_bind, if_neg hheader]
    apply (if_neg hwhole).trans
    apply (congrArg (· >>= _) (figure_eq ..)).trans
    rw [ok_bind, List.append_assoc, Ensemble.after_append]
    exact ih _
  | case3 place hplace hends houtside =>
    have hlt : place < fib.length := by omega
    obtain ⟨hheader, hlength⟩ := not_or.mp hends
    rw [Ensemble.absorbFrom, overhang, if_pos hplace, if_pos hplace, if_neg hends, if_neg houtside, index_of_lt hlt 0,
      ok_bind, if_neg hheader]
    split_ifs with hblock
    · have hwhole : ¬(fib.length < figureEnd fib place ∨ figureLength fib place = 0) :=
        not_or.mpr ⟨by omega, hlength⟩
      apply (if_neg hwhole).trans
      apply (congrArg (· >>= _) (figure_eq ..)).trans
      have hend : ¬figureEnd fib place < fibBytes - 2 := by omega
      rw [ok_bind, Ensemble.absorbFrom]
      exact if_neg hend
    · have hshort : fib.length < figureEnd fib place ∨ figureLength fib place = 0 := Or.inl (by omega)
      exact if_pos hshort
  | case4 place hplace =>
    rw [Ensemble.absorbFrom, overhang, if_neg hplace, if_neg hplace]
    rfl

theorem le_dataEnd {place : ℕ} (hplace : place ≤ fibBytes - 2) : place ≤ dataEnd fib place := by
  fun_induction dataEnd fib place with
  | case1 place hlt hmarker => exact hplace
  | case2 place hlt hheader hinside ih => exact (place_lt_figureEnd fib place).le.trans (ih hinside)
  | case3 place hlt hheader houtside => exact le_rfl
  | case4 place hge => exact hplace

theorem dataEnd_le {place : ℕ} (hplace : place ≤ fibBytes - 2) : dataEnd fib place ≤ fibBytes - 2 := by
  fun_induction dataEnd fib place with
  | case1 place hlt hmarker => exact le_rfl
  | case2 place hlt hheader hinside ih => exact ih hinside
  | case3 place hlt hheader houtside => exact hplace
  | case4 place hge => exact le_rfl

/-- Bytes that are those of a block up to the end of its data field, with an end marker there. -/
structure CleanedFrom (fib clean : List UInt8) (place : ℕ) : Prop where
  before : ∀ i < dataEnd fib place, clean[i]? = fib[i]?
  marker : clean.getD (dataEnd fib place) 0 = endMarker

variable {clean : List UInt8} {place : ℕ}

theorem CleanedFrom.getD (hclean : CleanedFrom fib clean place) {i : ℕ} (hi : i < dataEnd fib place) :
    clean.getD i 0 = fib.getD i 0 := by
  rw [List.getD_eq_getElem?_getD, hclean.before i hi, ← List.getD_eq_getElem?_getD]

theorem CleanedFrom.toldAt (hclean : CleanedFrom fib clean place) (hplace : place < dataEnd fib place)
    (hinside : figureEnd fib place ≤ dataEnd fib place) : toldAt clean place = toldAt fib place := by
  have hlength : figureLength clean place = figureLength fib place := by
    rw [figureLength, hclean.getD hplace, figureLength]
  have hbody : (clean.drop (place + 1)).take (figureLength fib place) =
      (fib.drop (place + 1)).take (figureLength fib place) := by
    apply List.ext_getElem?
    intro i
    rcases Nat.lt_or_ge i (figureLength fib place) with hi | hi
    · have hlt : place + 1 + i < dataEnd fib place := by
        rw [figureEnd] at hinside
        omega
      rw [List.getElem?_take_of_lt hi, List.getElem?_take_of_lt hi, List.getElem?_drop, List.getElem?_drop,
        hclean.before _ hlt]
    · rw [List.getElem?_eq_none ((List.length_take_le ..).trans hi),
        List.getElem?_eq_none ((List.length_take_le ..).trans hi)]
  rw [Figures.toldAt, Figures.toldAt, hlength, hclean.getD hplace, hbody]

/-- A walk that ends at a place. -/
theorem walk_of_ends (hends : Ends fib place) : insideUpdates fib place = [] ∧ overhang fib place = [] := by
  rw [insideUpdates, overhang, if_pos hends, if_pos hends, ite_self]
  exact ⟨rfl, rfl⟩

theorem walk_of_ge (hge : fibBytes - 2 ≤ place) : insideUpdates fib place = [] ∧ overhang fib place = [] := by
  rw [insideUpdates, overhang, if_neg (not_lt.mpr hge), if_neg (not_lt.mpr hge)]
  exact ⟨rfl, rfl⟩

theorem insideUpdates_of_outside (houtside : ¬figureEnd fib place ≤ fibBytes - 2) : insideUpdates fib place = [] := by
  rw [insideUpdates, if_neg houtside, ite_self, ite_self]

theorem walk_of_inside (hplace : place < fibBytes - 2) (hends : ¬Ends fib place)
    (hinside : figureEnd fib place ≤ fibBytes - 2) :
    insideUpdates fib place = toldAt fib place ++ insideUpdates fib (figureEnd fib place) ∧
      overhang fib place = overhang fib (figureEnd fib place) := by
  rw [insideUpdates, overhang, if_pos hplace, if_neg hends, if_pos hinside, if_pos hplace, if_neg hends,
    if_pos hinside]
  exact ⟨rfl, rfl⟩

/-- The walk over the cleaned bytes is the one over the figures of the data field. -/
theorem walk_cleaned (hplace : place ≤ fibBytes - 2) (hclean : CleanedFrom fib clean place) :
    insideUpdates clean place = insideUpdates fib place ∧ overhang clean place = [] := by
  induction hleft : fibBytes - 2 - place using Nat.strong_induction_on generalizing place with
  | _ left ih =>
    rcases hplace.lt_or_eq with hlt | rfl
    · rcases Decidable.em (fib.getD place 0 = endMarker) with hmarker | hheader
      · have hend : dataEnd fib place = fibBytes - 2 := by rw [dataEnd, if_pos hlt, if_pos hmarker]
        have hsame : Ends clean place := Or.inl ((hclean.getD (hend ▸ hlt)).trans hmarker)
        rw [(walk_of_ends hsame).1, (walk_of_ends hsame).2, (walk_of_ends (Or.inl hmarker)).1]
        exact ⟨rfl, rfl⟩
      · rcases Decidable.em (figureEnd fib place ≤ fibBytes - 2) with hinside | houtside
        · have hend : dataEnd fib place = dataEnd fib (figureEnd fib place) := by
            rw [dataEnd, if_pos hlt, if_neg hheader, if_pos hinside]
          have hwhole : figureEnd fib place ≤ dataEnd fib place := hend ▸ le_dataEnd hinside
          have hbefore : place < dataEnd fib place := (place_lt_figureEnd fib place).trans_le hwhole
          have hlength : figureLength clean place = figureLength fib place := by
            rw [figureLength, hclean.getD hbefore, figureLength]
          have hfigure : figureEnd clean place = figureEnd fib place := by rw [figureEnd, hlength, figureEnd]
          have hends : Ends clean place ↔ Ends fib place := by rw [Ends, hclean.getD hbefore, hlength, Ends]
          rcases Decidable.em (Ends fib place) with hstop | hgoes
          · rw [(walk_of_ends (hends.mpr hstop)).1, (walk_of_ends (hends.mpr hstop)).2, (walk_of_ends hstop).1]
            exact ⟨rfl, rfl⟩
          · have hnext : CleanedFrom fib clean (figureEnd fib place) := ⟨hend ▸ hclean.before, hend ▸ hclean.marker⟩
            have hless : fibBytes - 2 - figureEnd fib place < left := by
              have hadvance := place_lt_figureEnd fib place
              omega
            obtain ⟨hrest, hnone⟩ := ih _ hless hinside hnext rfl
            obtain ⟨hfib, -⟩ := walk_of_inside hlt hgoes hinside
            obtain ⟨hcleanInside, hcleanOver⟩ := walk_of_inside hlt (mt hends.mp hgoes) (hfigure.trans_le hinside)
            rw [hcleanInside, hcleanOver, hfib, hfigure, hrest, hnone, hclean.toldAt hbefore hwhole]
            exact ⟨rfl, rfl⟩
        · have hend : dataEnd fib place = place := by rw [dataEnd, if_pos hlt, if_neg hheader, if_neg houtside]
          have hmarker : clean.getD place 0 = endMarker := hend ▸ hclean.marker
          rw [(walk_of_ends (Or.inl hmarker)).1, (walk_of_ends (Or.inl hmarker)).2, insideUpdates_of_outside houtside]
          exact ⟨rfl, rfl⟩
    · rw [(walk_of_ge le_rfl).1, (walk_of_ge le_rfl).1, (walk_of_ge le_rfl).2]
      exact ⟨rfl, rfl⟩

theorem cleanedFrom (fib : Vector UInt8 fibBytes) : CleanedFrom fib.toList (cleaned fib).toList 0 := by
  have hend : dataEnd fib.toList 0 ≤ fibBytes - 2 := dataEnd_le (Nat.zero_le _)
  have hat (i : ℕ) (hi : i < fibBytes) : (cleaned fib).toList[i]? =
      some (if i < dataEnd fib.toList 0 then fib[i] else endMarker) := by
    rw [Vector.getElem?_toList, Vector.getElem?_eq_getElem hi, cleaned, Vector.getElem_ofFn]
    rfl
  constructor
  · intro i hi
    have hlt : i < fibBytes := by
      have hbytes : fibBytes = 32 := rfl
      omega
    rw [hat i hlt, if_pos hi, Vector.getElem?_toList, Vector.getElem?_eq_getElem hlt]
  · have hlt : dataEnd fib.toList 0 < fibBytes := lt_of_le_of_lt hend (by decide)
    rw [List.getD_eq_getElem?_getD, hat _ hlt, if_neg (lt_irrefl _), Option.getD_some]

end Absorb

/-- A block is read without an access outside it.  It is read as its data field alone if and only if what a figure
that ends in the check tells last of any field is what the ensemble holds there after the figures before it. -/
theorem absorb_data_field (ensemble : Ensemble) (fib : Vector UInt8 fibBytes) :
    ∃ read clean, ensemble.absorb fib = .ok read ∧ ensemble.absorb (cleaned fib) = .ok clean ∧
      (read = clean ↔ ∀ update ∈ Fields.settled Update.field (overhang fib.toList 0),
        update.Held (ensemble.after (insideUpdates fib.toList 0))) := by
  obtain ⟨hinside, hnone⟩ := walk_cleaned (Nat.zero_le _) (cleanedFrom fib)
  refine ⟨_, _, absorbFrom_eq fib.length_toList ensemble 0, absorbFrom_eq (cleaned fib).length_toList ensemble 0, ?_⟩
  rw [hinside, hnone, List.append_nil, Ensemble.after_append]
  exact Fields.foldl_eq_self_iff Update.law _ _

/-! ## A figure that reads the check -/

/-- A figure of an unknown kind up to byte 26, then the ensemble's identifier with one byte of it in the check. -/
def readsCheck : Vector UInt8 fibBytes :=
  ⟨⟨0x9A :: List.replicate 26 0 ++ [0x04, 0x00, 0x10, 31, 121]⟩, rfl⟩

theorem overhang_readsCheck : overhang readsCheck.toList 0 = [.id 0x101f] := by
  have hfirst : ¬Ends readsCheck.toList 0 := by decide
  have hsecond : ¬Ends readsCheck.toList 27 := by decide
  have hend : figureEnd readsCheck.toList 0 = 27 := rfl
  have hover : ¬figureEnd readsCheck.toList 27 ≤ fibBytes - 2 := by decide
  have hblock : figureEnd readsCheck.toList 27 ≤ fibBytes := by decide
  rw [(walk_of_inside (by decide) hfirst (by decide)).2, hend, overhang, if_pos (by decide), if_neg hsecond,
    if_neg hover, if_pos hblock]
  rfl

theorem insideUpdates_readsCheck : insideUpdates readsCheck.toList 0 = [] := by
  have hfirst : ¬Ends readsCheck.toList 0 := by decide
  have hend : figureEnd readsCheck.toList 0 = 27 := rfl
  have hover : ¬figureEnd readsCheck.toList 27 ≤ fibBytes - 2 := by decide
  rw [(walk_of_inside (by decide) hfirst (by decide)).1, hend, insideUpdates_of_outside hover]
  rfl

/-- With its check right, the block still tells an identifier that its data field does not. -/
theorem readsCheck_read : Mot.crcOk readsCheck.toList = true ∧
    Ensemble.empty.absorb readsCheck ≠ Ensemble.empty.absorb (cleaned readsCheck) := by
  constructor
  · decide +kernel
  · obtain ⟨hinside, hnone⟩ := walk_cleaned (Nat.zero_le _) (cleanedFrom readsCheck)
    rw [Ensemble.absorb, Ensemble.absorb, absorbFrom_eq readsCheck.length_toList,
      absorbFrom_eq (cleaned readsCheck).length_toList, hinside, hnone, insideUpdates_readsCheck, overhang_readsCheck]
    intro hsame
    have hid := congrArg Ensemble.id (Except.ok.inj hsame)
    exact absurd hid nofun

end Sdrmm.Dab.Figures
