import Sdrmm.Channels.DabEncoder
import Sdrmm.Dsp.Conv7Erasures

/-!
# What a protection profile sends

Of each symbol of the mother code every profile sends the first bit, and depuncturing puts the bits that are sent
back into their places.
-/

namespace Sdrmm.Dab

open Conv7 (Soft)

/-! ## Puncturing -/

theorem puncture_cons (keep bit : Bool) (mask coded : List Bool) :
    puncture (keep :: mask) (bit :: coded) = (if keep then [bit] else []) ++ puncture mask coded := by
  rw [puncture, List.zipIdx_cons, List.flatMap_cons, Nat.zero_add, List.zipIdx_succ, List.flatMap_map]
  rfl

theorem depuncture_puncture {mask coded : List Bool} (hlength : mask.length = coded.length) :
    depuncture mask ((puncture mask coded).map Conv7.soft) = Conv7.erased mask coded := by
  induction mask generalizing coded with
  | nil =>
    rw [List.length_eq_zero_iff.mp hlength.symm]
    rfl
  | cons keep mask ih =>
    obtain ⟨bit, coded, rfl⟩ := List.exists_cons_of_length_eq_add_one hlength.symm
    have htail := ih (Nat.succ.inj hlength)
    rw [puncture_cons, Conv7.erased, List.zipWith_cons_cons]
    change _ = _ :: Conv7.erased mask coded
    rw [← htail]
    cases keep with
    | true => rfl
    | false =>
      rw [if_neg Bool.false_ne_true, List.nil_append, depuncture, if_neg Bool.false_ne_true]
      · rfl
      · intro _ _ _ hkeep
        cases hkeep

theorem length_puncture {mask coded : List Bool} (hlength : mask.length = coded.length) :
    (puncture mask coded).length = mask.count true := by
  induction mask generalizing coded with
  | nil => rfl
  | cons keep mask ih =>
    obtain ⟨bit, coded, rfl⟩ := List.exists_cons_of_length_eq_add_one hlength.symm
    rw [puncture_cons, List.length_append, ih (Nat.succ.inj hlength), List.count_cons]
    cases keep with
    | true => exact Nat.add_comm 1 _
    | false => exact Nat.zero_add _

/-! ## Masks that keep the first bit of every symbol -/

def FirstKept (mask : List Bool) : Prop := ∀ k, 4 * k < mask.length → mask[4 * k]? = some true

theorem FirstKept.append {first second : List Bool} (hfirst : FirstKept first) (hsecond : FirstKept second)
    (hwhole : 4 ∣ first.length) : FirstKept (first ++ second) := by
  obtain ⟨symbols, hsymbols⟩ := hwhole
  intro k hk
  rw [List.length_append] at hk
  by_cases hlt : 4 * k < first.length
  · rw [List.getElem?_append_left hlt]
    exact hfirst k hlt
  · rw [List.getElem?_append_right (Nat.not_lt.mp hlt), hsymbols, ← Nat.mul_sub]
    apply hsecond
    omega

theorem FirstKept.flatMap {ι : Type} {part : ι → List Bool} {parts : List ι}
    (hparts : ∀ item ∈ parts, FirstKept (part item) ∧ 4 ∣ (part item).length) :
    FirstKept (parts.flatMap part) ∧ 4 ∣ (parts.flatMap part).length := by
  induction parts with
  | nil => exact ⟨fun k hk ↦ absurd hk (Nat.not_lt_zero _), dvd_zero 4⟩
  | cons item parts ih =>
    obtain ⟨hkept, hwhole⟩ := hparts item List.mem_cons_self
    obtain ⟨hrest, hlength⟩ := ih fun other hother ↦ hparts other (List.mem_cons_of_mem _ hother)
    rw [List.flatMap_cons, List.length_append]
    exact ⟨hkept.append hrest hwhole, Nat.dvd_add hwhole hlength⟩

/-- The bits of a segment. -/
def segmentMask (segment : ℕ × ℕ) : List Bool :=
  (List.range (segment.1 * block)).map fun position ↦ (pi.getD (segment.2 - 1) []).getD (position % cycle) 0 == 1

theorem mask_eq (protection : Protection) :
    protection.mask = protection.segments.flatMap segmentMask ++ piTail.map (· == 1) := rfl

theorem length_segmentMask (segment : ℕ × ℕ) : (segmentMask segment).length = segment.1 * block := by
  rw [segmentMask, List.length_map, List.length_range]

theorem firstKept_segmentMask {segment : ℕ × ℕ} (hlow : 1 ≤ segment.2) (hhigh : segment.2 ≤ 24) :
    FirstKept (segmentMask segment) := by
  have hrows : ∀ row < 24, ∀ k < 8, (pi.getD row []).getD (4 * k) 0 = 1 := by decide
  intro k hk
  rw [length_segmentMask] at hk
  have hplace : 4 * k % cycle = 4 * (k % 8) := Nat.mul_mod_mul_left 4 k 8
  rw [segmentMask, List.getElem?_map, List.getElem?_range hk, Option.map_some, hplace,
    hrows _ (by omega) _ (Nat.mod_lt _ (by decide))]
  rfl

theorem count_periodic (f : ℕ → Bool) (cycle repeats : ℕ) :
    ((List.range (repeats * cycle)).map fun position ↦ f (position % cycle)).count true =
      repeats * ((List.range cycle).map f).count true := by
  induction repeats with
  | zero =>
    rw [Nat.zero_mul, Nat.zero_mul]
    rfl
  | succ repeats ih =>
    have hlast : ((List.range cycle).map (repeats * cycle + ·)).map (fun position ↦ f (position % cycle)) =
        (List.range cycle).map f := by
      rw [List.map_map]
      apply List.map_congr_left
      intro position hposition
      rw [Function.comp_apply, Nat.mul_add_mod_self_right, Nat.mod_eq_of_lt (List.mem_range.mp hposition)]
    rw [Nat.succ_mul, List.range_add, List.map_append, List.count_append, ih, hlast, Nat.succ_mul]

theorem count_row (row : ℕ) :
    ((List.range cycle).map fun position ↦ (pi.getD row []).getD position 0 == 1).count true =
      ((pi.getD row []).filter (· = 1)).length := by
  by_cases hrow : row < 24
  · have hall : ∀ row < 24, ((List.range cycle).map fun position ↦ (pi.getD row []).getD position 0 == 1).count true =
        ((pi.getD row []).filter (· = 1)).length := by decide
    exact hall row hrow
  · rw [List.getD_eq_default _ _ (show pi.length ≤ row from Nat.not_lt.mp hrow)]
    rfl

theorem count_segmentMask (segment : ℕ × ℕ) :
    (segmentMask segment).count true = segment.1 * block / cycle * kept segment.2 := by
  have hblocks : segment.1 * block / cycle * cycle = segment.1 * block := by
    unfold block cycle
    omega
  have hcount := count_periodic (fun position ↦ (pi.getD (segment.2 - 1) []).getD position 0 == 1) cycle
    (segment.1 * block / cycle)
  rw [hblocks, count_row] at hcount
  exact hcount

/-! ## Profiles -/

/-- What is relied on of a profile. -/
structure Protection.Sound (protection : Protection) : Prop where
  rows : ∀ segment ∈ protection.segments, 1 ≤ segment.2 ∧ segment.2 ≤ 24
  frameBits : (protection.segments.map Prod.fst).sum * cycle = protection.frameBits
  octets : 8 ∣ protection.frameBits
  codedBits : protection.codedBits =
    (protection.segments.map fun (count, index) ↦ count * block / cycle * kept index).sum +
      (piTail.filter (· = 1)).length

theorem build_sound {frameBits : ℕ} {segments : List (ℕ × ℕ)} {protection : Protection}
    (hbuild : Protection.build frameBits segments = some protection)
    (hrows : ∀ segment ∈ segments, 1 ≤ segment.2 ∧ segment.2 ≤ 24) (hoctets : 8 ∣ frameBits) : protection.Sound := by
  unfold Protection.build at hbuild
  split at hbuild
  · exact nomatch hbuild
  · rename_i hframe
    rw [← Option.some_inj.mp hbuild]
    exact ⟨hrows, not_not.mp hframe, hoctets, rfl⟩

theorem eepA_rows {bitrate level l1 pi1 l2 pi2 : ℕ} (hsegments : eepA bitrate level = some (l1, pi1, l2, pi2)) :
    (1 ≤ pi1 ∧ pi1 ≤ 24) ∧ 1 ≤ pi2 ∧ pi2 ≤ 24 := by
  revert hsegments
  fun_cases eepA bitrate level
  all_goals intro hsegments
  all_goals first | contradiction | simp only [Option.some.injEq, Prod.mk.injEq] at hsegments
  all_goals omega

theorem eepB_rows {bitrate level l1 pi1 l2 pi2 : ℕ} (hsegments : eepB bitrate level = some (l1, pi1, l2, pi2)) :
    (1 ≤ pi1 ∧ pi1 ≤ 24) ∧ 1 ≤ pi2 ∧ pi2 ≤ 24 := by
  unfold eepB at hsegments
  dsimp only at hsegments
  split at hsegments
  · exact nomatch hsegments
  · split at hsegments
    all_goals first | contradiction | simp only [Option.some.injEq, Prod.mk.injEq] at hsegments
    all_goals omega

theorem pair_sound {bitrate : ℕ} {chosen : Option (ℕ × ℕ × ℕ × ℕ)} {protection : Protection}
    (hrows : ∀ {l1 pi1 l2 pi2}, chosen = some (l1, pi1, l2, pi2) → (1 ≤ pi1 ∧ pi1 ≤ 24) ∧ 1 ≤ pi2 ∧ pi2 ≤ 24)
    (hbuild : (chosen.bind fun (l1, pi1, l2, pi2) ↦ Protection.build (24 * bitrate) [(l1, pi1), (l2, pi2)]) =
      some protection) : protection.Sound := by
  obtain ⟨⟨l1, pi1, l2, pi2⟩, hsegments, hbuild⟩ := Option.bind_eq_some_iff.mp hbuild
  apply build_sound hbuild
  · intro segment hsegment
    rcases List.mem_cons.mp hsegment with rfl | hsecond
    · exact (hrows hsegments).1
    · rw [List.mem_singleton.mp hsecond]
      exact (hrows hsegments).2
  · exact Dvd.dvd.mul_right (by decide) bitrate

theorem eep_sound {bitrate level : ℕ} {profile : Eep} {protection : Protection}
    (heep : Protection.eep bitrate profile level = some protection) : protection.Sound := by
  cases profile with
  | a => exact pair_sound eepA_rows heep
  | b => exact pair_sound eepB_rows heep

theorem uep_sound {tableIndex : ℕ} {protection : Protection} (huep : Protection.uep tableIndex = some protection) :
    protection.Sound := by
  unfold Protection.uep at huep
  obtain ⟨⟨size, level, bitrate⟩, -, huep⟩ := Option.bind_eq_some_iff.mp huep
  obtain ⟨⟨rate, rung, lengths, indices⟩, hprofile, hbuild⟩ := Option.bind_eq_some_iff.mp huep
  have hrows : ∀ profile ∈ uepProfiles, ∀ index ∈ profile.2.2.2, index ≤ 24 := by decide
  apply build_sound hbuild
  · intro segment hsegment
    obtain ⟨hzip, hpositive⟩ := List.mem_filter.mp hsegment
    have hindex := hrows _ (List.mem_of_find?_eq_some hprofile) _ (List.of_mem_zip hzip).2
    exact ⟨(of_decide_eq_true hpositive).2, hindex⟩
  · exact Dvd.dvd.mul_right (by decide) bitrate

namespace Protection.Sound

variable {protection : Protection}

theorem length_mask (hsound : protection.Sound) : protection.mask.length = 4 * (protection.frameBits + 6) := by
  have hsum : ∀ segments : List (ℕ × ℕ),
      (segments.flatMap segmentMask).length = (segments.map Prod.fst).sum * block := by
    intro segments
    induction segments with
    | nil => rfl
    | cons segment segments ih =>
      rw [List.flatMap_cons, List.length_append, length_segmentMask, ih, List.map_cons, List.sum_cons, Nat.add_mul]
  rw [mask_eq, List.length_append, hsum, ← hsound.frameBits, List.length_map]
  change _ + 24 = _
  unfold block cycle
  omega

theorem firstKept_mask (hsound : protection.Sound) : FirstKept protection.mask := by
  have hsegments : ∀ segment ∈ protection.segments,
      FirstKept (segmentMask segment) ∧ 4 ∣ (segmentMask segment).length := by
    intro segment hsegment
    obtain ⟨hlow, hhigh⟩ := hsound.rows segment hsegment
    refine ⟨firstKept_segmentMask hlow hhigh, ?_⟩
    rw [length_segmentMask]
    exact Dvd.dvd.mul_left (by decide) segment.1
  have htail : FirstKept (piTail.map (· == 1)) := by
    have hall : ∀ k < 6, (piTail.map (· == 1))[4 * k]? = some true := by decide
    intro k hk
    apply hall k
    change 4 * k < 24 at hk
    omega
  rw [mask_eq]
  exact (FirstKept.flatMap hsegments).1.append htail (FirstKept.flatMap hsegments).2

theorem count_mask (hsound : protection.Sound) : protection.mask.count true = protection.codedBits := by
  have hsum : ∀ segments : List (ℕ × ℕ), (segments.flatMap segmentMask).count true =
      (segments.map fun (count, index) ↦ count * block / cycle * kept index).sum := by
    intro segments
    induction segments with
    | nil => rfl
    | cons segment segments ih =>
      rw [List.flatMap_cons, List.count_append, count_segmentMask, ih, List.map_cons, List.sum_cons]
  rw [mask_eq, List.count_append, hsum, hsound.codedBits]
  rfl

end Protection.Sound

end Sdrmm.Dab
