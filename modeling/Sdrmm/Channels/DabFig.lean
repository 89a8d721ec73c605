import Sdrmm.Channels.DabMsc
import Sdrmm.Lib.SortedMap

/-!
# Sub-channels announced on the fast information channel

`Ensemble::absorb` of `channels/src/dab/fig.rs` as far as it tells of sub-channels: the other figures leave their
table as it is.  A sub-channel that is announced by the tables of the standard can be decoded, but for the
unequal-error profiles that do not fill their capacity.
-/

namespace Sdrmm.Dab

open Conv7 (Soft)

structure SubChannel where
  id : ℕ
  startCu : ℕ
  sizeCu : ℕ
  bitrateKbps : ℕ
  protection : Protection
deriving DecidableEq

structure Ensemble where
  subchannels : SortedMap ℕ SubChannel

def fibBytes : ℕ := 32
def endMarker : UInt8 := 0xFF

/-- The long form: an equal-error profile with its size. -/
def longForm (first second third fourth : UInt8) : Option SubChannel := do
  let option := (third >>> 4 &&& 0x07).toNat
  if option > 1 then none
  else
    let level := (third >>> 2 &&& 0x03).toNat + 1
    let size := (third &&& 0x03).toNat <<< 8 ||| fourth.toNat
    let profile : Eep := if option = 0 then .a else .b
    let bitrate ← eepBitrateKbps size profile level
    let protection ← Protection.eep bitrate profile level
    return { id := (first >>> 2).toNat, startCu := (first &&& 0x03).toNat <<< 8 ||| second.toNat,
             sizeCu := size, bitrateKbps := bitrate, protection }

/-- The short form: an index into the table of unequal-error profiles. -/
def shortForm (first second third : UInt8) : Option SubChannel := do
  let index := (third &&& 0x3F).toNat
  let size ← uepSizeCu index
  let bitrate ← uepBitrateKbps index
  let protection ← Protection.uep index
  return { id := (first >>> 2).toNat, startCu := (first &&& 0x03).toNat <<< 8 ||| second.toNat,
           sizeCu := size, bitrateKbps := bitrate, protection }

namespace Ensemble

def new : Ensemble := ⟨.empty⟩

def insert (ensemble : Ensemble) (subchannel : SubChannel) : Ensemble :=
  ⟨ensemble.subchannels.insert subchannel.id subchannel⟩

def subchannelOrganization (ensemble : Ensemble) : List UInt8 → Ensemble
  | first :: second :: third :: data =>
    if third &&& 0x80 ≠ 0 then
      match data with
      | [] => ensemble
      | fourth :: data =>
        match longForm first second third fourth with
        | none => ensemble
        | some subchannel => (ensemble.insert subchannel).subchannelOrganization data
    else
      match shortForm first second third with
      | none => ensemble
      | some subchannel => (ensemble.insert subchannel).subchannelOrganization data
  | _ => ensemble

def figureZero (ensemble : Ensemble) : List UInt8 → Ensemble
  | [] => ensemble
  | header :: data =>
    if header &&& 0xc0 ≠ 0 then ensemble
    else if header &&& 0x1F = 1 then ensemble.subchannelOrganization data
    else ensemble

/-- The figures of a block from a place on. -/
def absorbFrom (fib : List UInt8) (ensemble : Ensemble) (place : ℕ) : Ensemble :=
  if place < fibBytes - 2 then
    let header := fib.getD place 0
    if header = endMarker then ensemble
    else
      let kind := header >>> 5
      let length := (header &&& 0x1F).toNat
      if length = 0 ∨ fib.length < place + 1 + length then ensemble
      else
        let body := (fib.drop (place + 1)).take length
        absorbFrom fib (if kind = 0 then ensemble.figureZero body else ensemble) (place + 1 + length)
  else ensemble
termination_by fibBytes - 2 - place

def absorb (ensemble : Ensemble) (fib : List UInt8) : Ensemble := absorbFrom fib ensemble 0

end Ensemble

/-! ## What is announced -/

/-- How a sub-channel is announced: by an index of the table, or by a profile and a level. -/
inductive Announcement
  | uep (index : ℕ)
  | eep (profile : Eep) (level : ℕ)
deriving DecidableEq

namespace Announcement

def Announces (subchannel : SubChannel) : Announcement → Prop
  | uep index => index < 64 ∧ uepSizeCu index = some subchannel.sizeCu ∧
      uepBitrateKbps index = some subchannel.bitrateKbps ∧ Protection.uep index = some subchannel.protection
  | eep profile level => 1 ≤ level ∧ level ≤ 4 ∧ subchannel.sizeCu < 1024 ∧
      eepBitrateKbps subchannel.sizeCu profile level = some subchannel.bitrateKbps ∧
      Protection.eep subchannel.bitrateKbps profile level = some subchannel.protection

/-- An equal-error profile has whole units. -/
def Whole (sizeCu : ℕ) : Announcement → Prop
  | uep _ => True
  | eep profile level => eepUnit profile level ∣ sizeCu ∧ 0 < sizeCu

/-- The profiles that fill their capacity. -/
def Fills : Announcement → Prop
  | uep index => index ∉ uepShort
  | eep _ _ => True

variable {subchannel : SubChannel} {announcement : Announcement}

/-- The coded length is the capacity where the profile fills it. -/
theorem Announces.codedBits (hannounces : announcement.Announces subchannel)
    (hwhole : announcement.Whole subchannel.sizeCu) :
    subchannel.protection.codedBits = subchannel.sizeCu * cuBits ↔ announcement.Fills := by
  cases announcement with
  | uep index =>
    obtain ⟨hindex, hsize, -, hprotection⟩ := hannounces
    obtain ⟨size, bitrate, protection, hsizeSome, -, hprotectionSome, hcoded⟩ := uep_codedBits index hindex
    cases hsize.symm.trans hsizeSome
    cases hprotection.symm.trans hprotectionSome
    exact hcoded
  | eep profile level =>
    obtain ⟨hlevel, hmost, hlt, hbitrate, hprotection⟩ := hannounces
    obtain ⟨⟨count, hcount⟩, hpositive⟩ := hwhole
    have hcountPositive : 0 < count := by
      rcases Nat.eq_zero_or_pos count with rfl | hcountPositive
      · rw [hcount, Nat.mul_zero] at hpositive
        exact absurd hpositive (lt_irrefl 0)
      · exact hcountPositive
    rw [hcount] at hlt hbitrate
    rw [eepBitrateKbps_unit profile hlevel hmost hcountPositive hlt] at hbitrate
    obtain ⟨protection, hprotectionSome, hcoded⟩ := eep_unit profile hlevel hmost hcountPositive
    rw [← Option.some.inj hbitrate, hprotectionSome] at hprotection
    cases hprotection
    rw [hcount]
    exact iff_of_true hcoded trivial

end Announcement

theorem longForm_announces {first second third fourth : UInt8} {subchannel : SubChannel}
    (hform : longForm first second third fourth = some subchannel) :
    ∃ announcement : Announcement, announcement.Announces subchannel := by
  unfold longForm at hform
  dsimp only at hform
  generalize (if (third >>> 4 &&& 0x07).toNat = 0 then Eep.a else Eep.b) = profile at hform
  split_ifs at hform with hoption
  obtain ⟨bitrate, hbitrate, hform⟩ := Option.bind_eq_some_iff.mp hform
  obtain ⟨protection, hprotection, hform⟩ := Option.bind_eq_some_iff.mp hform
  cases hform
  have hlevel : (third >>> 2 &&& 0x03).toNat ≤ 3 := UInt8.and_le_right
  have hsize : (third &&& 0x03).toNat <<< 8 ||| fourth.toNat < 2 ^ 10 := by
    have hhigh : (third &&& 0x03).toNat ≤ 3 := UInt8.and_le_right
    apply Nat.or_lt_two_pow
    · rw [Nat.shiftLeft_eq]
      omega
    · exact lt_trans fourth.toNat_lt (by decide)
  exact ⟨.eep _ _, Nat.succ_le_succ (Nat.zero_le _), Nat.succ_le_succ hlevel, hsize, hbitrate, hprotection⟩

theorem shortForm_announces {first second third : UInt8} {subchannel : SubChannel}
    (hform : shortForm first second third = some subchannel) :
    ∃ announcement : Announcement, announcement.Announces subchannel := by
  unfold shortForm at hform
  dsimp only at hform
  obtain ⟨size, hsize, hform⟩ := Option.bind_eq_some_iff.mp hform
  obtain ⟨bitrate, hbitrate, hform⟩ := Option.bind_eq_some_iff.mp hform
  obtain ⟨protection, hprotection, hform⟩ := Option.bind_eq_some_iff.mp hform
  cases hform
  have hindex : (third &&& 0x3F).toNat ≤ 63 := UInt8.and_le_right
  exact ⟨.uep _, Nat.lt_succ_of_le hindex, hsize, hbitrate, hprotection⟩

/-- Every sub-channel of the table was announced. -/
def Told (ensemble : Ensemble) : Prop :=
  ∀ id subchannel, (id, subchannel) ∈ ensemble.subchannels.entries →
    ∃ announcement : Announcement, announcement.Announces subchannel

theorem Told.insert {ensemble : Ensemble} (htold : Told ensemble) {subchannel : SubChannel}
    (hannounced : ∃ announcement : Announcement, announcement.Announces subchannel) :
    Told (ensemble.insert subchannel) := by
  intro id other hother
  rcases SortedMap.mem_insert.mp hother with hnew | ⟨hold, -⟩
  · cases hnew
    exact hannounced
  · exact htold id other hold

theorem Told.subchannelOrganization {ensemble : Ensemble} (htold : Told ensemble) (data : List UInt8) :
    Told (ensemble.subchannelOrganization data) := by
  fun_induction Ensemble.subchannelOrganization ensemble data with
  | case1 => exact htold
  | case2 => exact htold
  | case3 ensemble first second third hlong fourth data subchannel hform ih =>
    exact ih (htold.insert (longForm_announces hform))
  | case4 => exact htold
  | case5 ensemble first second third data hlong subchannel hform ih =>
    exact ih (htold.insert (shortForm_announces hform))
  | case6 => exact htold

theorem Told.absorbFrom {ensemble : Ensemble} (htold : Told ensemble) (fib : List UInt8) (place : ℕ) :
    Told (Ensemble.absorbFrom fib ensemble place) := by
  have hzero : ∀ {ensemble : Ensemble} (body : List UInt8), Told ensemble → Told (ensemble.figureZero body) := by
    intro ensemble body htold
    cases body with
    | nil => exact htold
    | cons header data =>
      unfold Ensemble.figureZero
      dsimp only
      split_ifs
      · exact htold
      · exact htold.subchannelOrganization data
      · exact htold
  fun_induction Ensemble.absorbFrom fib ensemble place with
  | case1 => exact htold
  | case2 => exact htold
  | case3 ensemble place hplace header hmarker kind length hlength body ih =>
    apply ih
    split_ifs
    · exact hzero body htold
    · exact htold
  | case4 => exact htold

/-- A decoder of the sub-channel that gets fragments of its capacity decodes a frame of every one from the
seventeenth on. -/
def Decodes (subchannel : SubChannel) : Prop :=
  ∀ fragments out, (∀ fragment ∈ fragments, List.length fragment = subchannel.sizeCu * cuBits) →
    ∀ index < fragments.length, depth ≤ index →
      ((SubChannelDecoder.new subchannel.protection).answers out fragments)[index]? = some true

/-- It does where the coded length is the capacity, and drops every fragment where it is not. -/
theorem decodes_iff (subchannel : SubChannel) :
    Decodes subchannel ↔ subchannel.protection.codedBits = subchannel.sizeCu * cuBits := by
  constructor
  · intro hdecodes
    by_contra hother
    have hlength : ∀ fragment ∈ List.replicate (depth + 1)
        (List.replicate (subchannel.sizeCu * cuBits) erasure),
        fragment.length = subchannel.sizeCu * cuBits := by
      intro fragment hfragment
      rw [List.eq_of_mem_replicate hfragment, List.length_replicate]
    have hready := hdecodes _ [] hlength depth (by rw [List.length_replicate]; exact Nat.lt_succ_self _) le_rfl
    have hdropped : ∀ fragment ∈ List.replicate (depth + 1)
        (List.replicate (subchannel.sizeCu * cuBits) erasure),
        fragment.length ≠ subchannel.protection.codedBits := by
      intro fragment hfragment hsame
      exact hother (hsame.symm.trans (hlength fragment hfragment))
    rw [(taken_new subchannel.protection).drops [] _ hdropped, List.length_replicate,
      List.getElem?_replicate_of_lt (Nat.lt_succ_self _)] at hready
    cases hready
  · intro hcoded fragments out hlength index hindex hdepth
    rw [← hcoded] at hlength
    rw [(taken_new subchannel.protection).answers out fragments hlength, List.getElem?_map,
      List.getElem?_range' hindex, Option.map_some, Nat.zero_add, Nat.one_mul, decide_eq_true hdepth]

/-- A sub-channel announced by the table or in whole units is decoded, except for the unequal-error profiles
that leave a part of their capacity unused. -/
theorem announced_decodes_iff (fibs : List (List UInt8)) :
    ∀ subchannel ∈ (fibs.foldl Ensemble.absorb Ensemble.new).subchannels.values,
      (∃ announcement : Announcement, announcement.Announces subchannel) ∧
      ∀ announcement : Announcement, announcement.Announces subchannel →
        announcement.Whole subchannel.sizeCu → (Decodes subchannel ↔ announcement.Fills) := by
  have htold : Told (fibs.foldl Ensemble.absorb Ensemble.new) := by
    have hrun : ∀ (fibs : List (List UInt8)) (ensemble : Ensemble), Told ensemble →
        Told (fibs.foldl Ensemble.absorb ensemble) := by
      intro fibs
      induction fibs with
      | nil => exact fun _ htold ↦ htold
      | cons fib fibs ih => exact fun ensemble htold ↦ ih _ (htold.absorbFrom fib 0)
    exact hrun fibs _ fun _ _ hmem ↦ nomatch hmem
  intro subchannel hmem
  obtain ⟨⟨id, _⟩, hentry, rfl⟩ := List.mem_map.mp hmem
  refine ⟨htold id _ hentry, ?_⟩
  intro announcement hannounces hwhole
  rw [decodes_iff]
  exact hannounces.codedBits hwhole

/-- A block that announces a sub-channel by the table index 0. -/
def fullBlock : List UInt8 := [0x04, 0x01, 0x00, 0x00, 0x00] ++ List.replicate 27 0xFF

theorem decodes_fullBlock :
    Decodes ⟨0, 0, 16, 32, ⟨[(3, 5), (4, 3), (17, 2)], 768, 1024⟩⟩ := by
  have hvalues : ([fullBlock].foldl Ensemble.absorb Ensemble.new).subchannels.values =
      [⟨0, 0, 16, 32, ⟨[(3, 5), (4, 3), (17, 2)], 768, 1024⟩⟩] := by
    decide +kernel
  have hmem : (⟨0, 0, 16, 32, ⟨[(3, 5), (4, 3), (17, 2)], 768, 1024⟩⟩ : SubChannel) ∈
      ([fullBlock].foldl Ensemble.absorb Ensemble.new).subchannels.values := by
    rw [hvalues]
    exact List.mem_singleton_self _
  have hannounces : (Announcement.uep 0).Announces
      ⟨0, 0, 16, 32, ⟨[(3, 5), (4, 3), (17, 2)], 768, 1024⟩⟩ := by
    refine ⟨by decide, by decide, by decide, by decide⟩
  have hfills : (Announcement.uep 0).Fills := by
    unfold Announcement.Fills
    decide
  exact ((announced_decodes_iff [fullBlock] _ hmem).2 _ hannounces trivial).mpr hfills

/-- A block that announces a sub-channel by the table index 23: 80 kbit/s at protection level 1. -/
def shortBlock : List UInt8 := [0x04, 0x01, 0x00, 0x00, 0x17] ++ List.replicate 27 0xFF

/-- Its profile is coded to 4972 bits, where its capacity is 5376. -/
theorem not_decodes_shortBlock :
    ¬∀ subchannel ∈ ([shortBlock].foldl Ensemble.absorb Ensemble.new).subchannels.values,
      Decodes subchannel := by
  intro hall
  have hvalues : ([shortBlock].foldl Ensemble.absorb Ensemble.new).subchannels.values =
      [⟨0, 0, 84, 80, ⟨[(6, 24), (10, 7), (41, 12), (3, 18)], 1920, 4972⟩⟩] := by
    decide +kernel
  rw [hvalues] at hall
  have hcoded := (decodes_iff _).mp (hall _ (List.mem_singleton_self _))
  exact absurd hcoded (by decide)

end Sdrmm.Dab
