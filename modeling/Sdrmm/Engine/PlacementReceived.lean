import Sdrmm.Engine.PlacementModel

/-!
# What an assignment receives

An assignment gives every decoder that can be placed one of its usable lanes; `optimum` is the most
that any assignment receives.  Channels are numbered as in the model: decoders first, then the
fixed channels radio by radio.  `tagged` keeps these numbers with the channels a radio carries, so
that what is received becomes a set of numbers.  `received_le_reach` bounds it by what the search
can reach, and `reach_le_received` turns a choice of the search into an assignment that receives as
much.
-/

namespace Sdrmm.Allocator

open Planning

/-! ## Assignments -/

/-- All ways of giving each decoder one of its usable lanes, if it has any. -/
def assignments (radios : List Radio) : List Placeable → List (List Placement)
  | [] => [[]]
  | decoder :: decoders =>
      if usable decoder radios = [] then assignments radios decoders
      else (usable decoder radios).flatMap fun lane ↦
        (assignments radios decoders).map fun placements ↦ ⟨decoder.node, lane⟩ :: placements

/-- The most channels any assignment receives. -/
def optimum (decoders : List Placeable) (radios : List Radio) : ℕ :=
  Cover.greatest ((assignments radios decoders).map (received decoders radios))

/-- A placement that gives a decoder one of its usable lanes. -/
structure Places (radios : List Radio) (decoder : Placeable) (placement : Placement) : Prop where
  node_eq : placement.node = decoder.node
  usable : placement.lane ∈ usable decoder radios

/-- One placement for each decoder that has a usable lane, in order. -/
def Assigns (radios : List Radio) (decoders : List Placeable) (placements : List Placement) :
    Prop :=
  List.Forall₂ (Places radios) (decoders.filter fun decoder ↦ usable decoder radios ≠ []) placements

section Assignments

variable {radios : List Radio}

theorem mem_assignments {decoders : List Placeable} {placements : List Placement} :
    placements ∈ assignments radios decoders ↔ Assigns radios decoders placements := by
  induction decoders generalizing placements with
  | nil =>
    rw [assignments, List.mem_singleton, Assigns, List.filter_nil, List.forall₂_nil_left_iff]
  | cons decoder decoders ih =>
    rw [assignments, Assigns, List.filter_cons]
    by_cases hnone : usable decoder radios = []
    · simp only [hnone, ne_eq, not_true_eq_false, decide_false, Bool.false_eq_true, if_true,
        if_false]
      exact ih
    · simp only [hnone, ne_eq, not_false_eq_true, decide_true, if_true, if_false,
        List.forall₂_cons_left_iff, List.mem_flatMap, List.mem_map]
      constructor
      · rintro ⟨lane, hlane, rest, hrest, rfl⟩
        exact ⟨⟨decoder.node, lane⟩, rest, ⟨rfl, hlane⟩, ih.mp hrest, rfl⟩
      · rintro ⟨⟨node, lane⟩, rest, ⟨rfl, hlane⟩, hrest, rfl⟩
        exact ⟨lane, hlane, rest, ih.mpr hrest, rfl⟩

theorem received_le_optimum {decoders : List Placeable} {placements : List Placement}
    (hassigns : Assigns radios decoders placements) :
    received decoders radios placements ≤ optimum decoders radios :=
  Cover.le_greatest (List.mem_map_of_mem (mem_assignments.mpr hassigns))

theorem optimum_le {decoders : List Placeable} {bound : ℕ}
    (hbound : ∀ placements, Assigns radios decoders placements →
      received decoders radios placements ≤ bound) : optimum decoders radios ≤ bound := by
  refine Cover.greatest_le ?_
  intro value hvalue
  obtain ⟨placements, hmem, rfl⟩ := List.mem_map.mp hvalue
  exact hbound placements (mem_assignments.mp hmem)

/-- A lane for each decoder that has one makes an assignment. -/
theorem assigns_filterMap {β : Type*} (decoder : β → Placeable) (lane : β → Option Lane)
    (items : List β)
    (hnone : ∀ item ∈ items, lane item = none ↔ usable (decoder item) radios = [])
    (hsome : ∀ item ∈ items, ∀ found, lane item = some found →
      found ∈ usable (decoder item) radios) :
    Assigns radios (items.map decoder) (items.filterMap fun item ↦
      (lane item).map fun lane ↦ ⟨(decoder item).node, lane⟩) := by
  induction items with
  | nil => exact .nil
  | cons item items ih =>
    have hrest := ih (fun other hmem ↦ hnone other (List.mem_cons_of_mem item hmem))
      fun other hmem ↦ hsome other (List.mem_cons_of_mem item hmem)
    have hiff := hnone item List.mem_cons_self
    have hfound := hsome item List.mem_cons_self
    rw [Assigns, List.map_cons, List.filter_cons, List.filterMap_cons]
    cases hlane : lane item with
    | none =>
      have hempty := hiff.mp hlane
      simp only [hempty, ne_eq, not_true_eq_false, decide_false, Bool.false_eq_true, if_false,
        Option.map_none]
      exact hrest
    | some found =>
      have hne : usable (decoder item) radios ≠ [] := fun hempty ↦ by
        rw [hiff.mpr hempty] at hlane
        exact absurd hlane (by simp)
      simp only [hne, ne_eq, not_false_eq_true, decide_true, if_true, Option.map_some]
      exact .cons ⟨rfl, hfound found hlane⟩ hrest

end Assignments

/-! ## Lanes -/

theorem fallback_none {decoder : Placeable} {lanes : List Lane} {radios : List Radio} :
    fallback decoder lanes radios = none ↔ lanes = [] := by
  rw [fallback, Option.map_eq_none_iff]
  constructor
  · intro hnone
    by_contra hne
    obtain ⟨best, hbest⟩ := Iter.maxByKey_isSome (laneKey decoder radios)
      (fun hempty ↦ hne (List.zipIdx_eq_nil_iff.mp hempty) : lanes.zipIdx ≠ [])
    rw [hnone] at hbest
    exact absurd hbest (by simp)
  · rintro rfl
    rfl

theorem fallback_mem {decoder : Placeable} {lanes : List Lane} {radios : List Radio} {lane : Lane}
    (hlane : fallback decoder lanes radios = some lane) : lane ∈ lanes := by
  rw [fallback, Option.map_eq_some_iff] at hlane
  obtain ⟨⟨found, index⟩, hbest, rfl⟩ := hlane
  have hmem := List.mem_zipIdx_iff_getElem?.mp (Iter.maxByKey_mem _ hbest)
  exact List.mem_of_getElem? hmem

theorem fallbackPlacements_assigns (decoders : List Placeable) (radios : List Radio) :
    Assigns radios decoders (fallbackPlacements decoders radios) := by
  have hassigns := assigns_filterMap id
    (fun decoder ↦ fallback decoder (usable decoder radios) radios) decoders
    (fun _ _ ↦ fallback_none) fun _ _ _ hlane ↦ fallback_mem hlane
  rwa [List.map_id] at hassigns

section Project

variable {decoders : List Placeable} {radios : List Radio} {total : ℕ} {model : Model total}
  (hlanes : model.lanes = decoders.map fun decoder ↦ usable decoder radios)

include hlanes

theorem lanes_getD {bit : ℕ} {decoder : Placeable} (hdecoder : decoders[bit]? = some decoder) :
    model.lanes.getD bit [] = usable decoder radios := by
  rw [hlanes, List.getD_eq_getElem?_getD, List.getElem?_map, hdecoder, Option.map_some,
    Option.getD_some]

/-- The lanes a choice covers, or all of them if it covers none. -/
theorem preferred_ne_nil (chosen : List ℕ) {bit : ℕ} {decoder : Placeable}
    (hdecoder : decoders[bit]? = some decoder) :
    let covered := (model.lanes.getD bit []).filter fun lane ↦ model.covers radios chosen bit lane
    let lanes := if covered.isEmpty then model.lanes.getD bit [] else covered
    (lanes = [] ↔ usable decoder radios = []) ∧ ∀ lane ∈ lanes, lane ∈ usable decoder radios := by
  intro covered lanes
  have husable := lanes_getD hlanes hdecoder
  have hcases : lanes = if covered.isEmpty then usable decoder radios else covered := by
    simp only [lanes, husable]
  have hcovered : ∀ lane ∈ covered, lane ∈ usable decoder radios := by
    intro lane hlane
    rw [← husable]
    exact (List.mem_filter.mp hlane).1
  rw [hcases]
  split_ifs with hempty
  · exact ⟨Iff.rfl, fun _ hlane ↦ hlane⟩
  · have hne : covered ≠ [] := by simpa using hempty
    refine ⟨⟨fun hnil ↦ absurd hnil hne, ?_⟩, hcovered⟩
    intro hnone
    obtain ⟨lane, hlane⟩ := List.exists_mem_of_ne_nil _ hne
    have hmem := hcovered lane hlane
    rw [hnone] at hmem
    exact absurd hmem (by simp)

theorem project_assigns (chosen : List ℕ) :
    Assigns radios decoders (project decoders radios model chosen) := by
  have hassigns := assigns_filterMap Prod.fst (fun item : Placeable × ℕ ↦
    let covered := (model.lanes.getD item.2 []).filter fun lane ↦
      model.covers radios chosen item.2 lane
    fallback item.1 (if covered.isEmpty then model.lanes.getD item.2 [] else covered) radios)
    decoders.zipIdx
    (fun item hitem ↦ fallback_none.trans
      (preferred_ne_nil hlanes chosen (List.mem_zipIdx_iff_getElem?.mp hitem)).1)
    fun item hitem lane hlane ↦ (preferred_ne_nil hlanes chosen
      (List.mem_zipIdx_iff_getElem?.mp hitem)).2 lane (fallback_mem hlane)
  rwa [List.zipIdx_map_fst] at hassigns

/-- A decoder with a covered lane is placed on one. -/
theorem exists_project {chosen : List ℕ} {bit : ℕ} {decoder : Placeable} {lane : Lane}
    (hdecoder : decoders[bit]? = some decoder) (hlane : lane ∈ usable decoder radios)
    (hcovers : model.covers radios chosen bit lane = true) :
    ∃ placement ∈ project decoders radios model chosen, placement.node = decoder.node ∧
      model.covers radios chosen bit placement.lane = true := by
  have hmem : lane ∈ (model.lanes.getD bit []).filter fun lane ↦
      model.covers radios chosen bit lane := by
    rw [lanes_getD hlanes hdecoder]
    exact List.mem_filter.mpr ⟨hlane, hcovers⟩
  set covered := (model.lanes.getD bit []).filter fun lane ↦ model.covers radios chosen bit lane
    with hcovered
  have hne : ¬covered.isEmpty = true := by
    rw [List.isEmpty_iff]
    exact List.ne_nil_of_mem hmem
  cases hfound : fallback decoder covered radios with
  | none =>
    rw [fallback_none] at hfound
    exact absurd (List.isEmpty_iff.mpr hfound) hne
  | some found =>
    refine ⟨⟨decoder.node, found⟩, ?_, rfl, (List.mem_filter.mp (fallback_mem hfound)).2⟩
    refine List.mem_filterMap.mpr
      ⟨(decoder, bit), List.mem_zipIdx_iff_getElem?.mpr hdecoder, ?_⟩
    simp only [← hcovered, if_neg hne, hfound, Option.map_some]

end Project

/-! ## Numbered channels -/

/-- The placement of a decoder on a radio, if it has one there. -/
def placedOn (placements : List Placement) (decoder : Placeable) (deviceSet : ℕ) :
    Option Placement :=
  placements.find? fun placement ↦
    placement.node = decoder.node ∧ placement.lane.deviceSet = deviceSet

/-- The channels a radio carries, with their numbers. -/
def tagged (decoders : List Placeable) (placements : List Placement) (station : Station) :
    List (ℕ × ChannelInfo) :=
  (station.radio.fixed.zipIdx.map fun item ↦ (station.fixedBit + item.2, item.1)) ++
    decoders.zipIdx.filterMap fun item ↦
      (placedOn placements item.1 station.radio.deviceSet).map fun placement ↦
        (item.2, carriedInfo item.1 placement.lane.stream)

theorem tagged_map_snd (decoders : List Placeable) (placements : List Placement)
    (station : Station) :
    (tagged decoders placements station).map Prod.snd =
      carried decoders placements station.radio := by
  rw [tagged, carried, List.map_append, List.map_map, List.map_filterMap]
  have hfixed : station.radio.fixed.zipIdx.map
      (Prod.snd ∘ fun item : ChannelInfo × ℕ ↦ (station.fixedBit + item.2, item.1)) =
      station.radio.fixed := List.zipIdx_map_fst 0 _
  have hplaced : (decoders.zipIdx.filterMap fun item ↦
      ((placedOn placements item.1 station.radio.deviceSet).map fun placement ↦
        (item.2, carriedInfo item.1 placement.lane.stream)).map Prod.snd) =
      (decoders.zipIdx.map Prod.fst).filterMap fun decoder ↦
        (placedOn placements decoder station.radio.deviceSet).map fun placement ↦
          carriedInfo decoder placement.lane.stream := by
    rw [List.filterMap_map]
    simp only [Option.map_map, Function.comp_def]
  rw [hfixed, hplaced, List.zipIdx_map_fst]
  rfl

theorem placedOn_mem {placements : List Placement} {decoder : Placeable} {deviceSet : ℕ}
    {placement : Placement} (hplaced : placedOn placements decoder deviceSet = some placement) :
    placement ∈ placements ∧ placement.node = decoder.node ∧
      placement.lane.deviceSet = deviceSet := by
  have hcondition := List.find?_some hplaced
  rw [decide_eq_true_iff] at hcondition
  exact ⟨List.mem_of_find?_eq_some hplaced, hcondition⟩

theorem eq_of_node_eq {placements : List Placement}
    (hnodes : (placements.map Placement.node).Nodup) {a b : Placement} (ha : a ∈ placements)
    (hb : b ∈ placements) (hnode : a.node = b.node) : a = b :=
  List.inj_on_of_nodup_map hnodes ha hb hnode

theorem placedOn_eq {placements : List Placement} (hnodes : (placements.map Placement.node).Nodup)
    {placement : Placement} (hmem : placement ∈ placements) {decoder : Placeable}
    (hnode : placement.node = decoder.node) :
    placedOn placements decoder placement.lane.deviceSet = some placement := by
  cases hplaced : placedOn placements decoder placement.lane.deviceSet with
  | none =>
    have hnone := List.find?_eq_none.mp hplaced placement hmem
    exact absurd (decide_eq_true ⟨hnode, rfl⟩) hnone
  | some other =>
    obtain ⟨hother, hotherNode, -⟩ := placedOn_mem hplaced
    rw [eq_of_node_eq hnodes hother hmem (hotherNode.trans hnode.symm)]

section Tagged

variable {decoders : List Placeable} {placements : List Placement} {station : Station} {bit : ℕ}
  {channel : ChannelInfo}

/-- A numbered channel is a fixed one, or a decoder's that is placed on the radio. -/
theorem mem_tagged :
    (bit, channel) ∈ tagged decoders placements station ↔
      (∃ index, station.radio.fixed[index]? = some channel ∧ bit = station.fixedBit + index) ∨
      ∃ decoder, decoders[bit]? = some decoder ∧ ∃ placement,
        placedOn placements decoder station.radio.deviceSet = some placement ∧
        channel = carriedInfo decoder placement.lane.stream := by
  simp only [tagged, List.mem_append, List.mem_map, List.mem_filterMap, Prod.exists,
    List.mem_zipIdx_iff_getElem?, Prod.mk.injEq, Option.map_eq_some_iff]
  constructor
  · rintro (⟨found, index, hget, rfl, rfl⟩ | ⟨decoder, index, hget, placement, hplaced, rfl, rfl⟩)
    · exact .inl ⟨index, hget, rfl⟩
    · exact .inr ⟨decoder, hget, placement, hplaced, rfl⟩
  · rintro (⟨index, hget, rfl⟩ | ⟨decoder, hget, placement, hplaced, rfl⟩)
    · exact .inl ⟨channel, index, hget, rfl, rfl⟩
    · exact .inr ⟨decoder, bit, hget, placement, hplaced, rfl, rfl⟩

end Tagged

/-! ## Stations -/

section Stations

variable {decoders : List Placeable} {placements : List Placement}

theorem mem_stations {index fixedBit : ℕ} {radios : List Radio} {station : Station}
    (hmem : station ∈ stations index fixedBit radios) :
    radios[station.index - index]? = some station.radio ∧ index ≤ station.index ∧
      fixedBit ≤ station.fixedBit ∧ station.fixedBit + station.radio.fixed.length ≤
        fixedBit + (radios.map fun radio ↦ radio.fixed.length).sum := by
  induction radios generalizing index fixedBit with
  | nil => exact absurd hmem (by simp [stations])
  | cons radio radios ih =>
    rw [stations, List.mem_cons] at hmem
    rw [List.map_cons, List.sum_cons]
    rcases hmem with rfl | hmem
    · refine ⟨by simp, le_rfl, le_rfl, ?_⟩
      simp only
      omega
    · obtain ⟨hget, hindex, hlow, hhigh⟩ := ih hmem
      refine ⟨?_, by omega, by omega, by omega⟩
      have hsucc : station.index - index = (station.index - (index + 1)) + 1 := by omega
      rw [hsucc, List.getElem?_cons_succ, hget]

/-- Two radios share neither their number nor a bit. -/
theorem stations_pairwise (index fixedBit : ℕ) {radios : List Radio}
    (hsets : (radios.map Radio.deviceSet).Nodup) :
    (stations index fixedBit radios).Pairwise fun a b ↦
      a.fixedBit + a.radio.fixed.length ≤ b.fixedBit ∧
        a.radio.deviceSet ≠ b.radio.deviceSet := by
  induction radios generalizing index fixedBit with
  | nil => exact .nil
  | cons radio radios ih =>
    rw [List.map_cons, List.nodup_cons] at hsets
    rw [stations, List.pairwise_cons]
    refine ⟨?_, ih (index + 1) (fixedBit + radio.fixed.length) hsets.2⟩
    intro station hmem
    obtain ⟨hget, -, hlow, -⟩ := mem_stations hmem
    refine ⟨hlow, ?_⟩
    intro hsame
    exact hsets.1 (hsame ▸ List.mem_map_of_mem (List.mem_of_getElem? hget))

theorem stations_map_radio (index fixedBit : ℕ) (radios : List Radio) :
    (stations index fixedBit radios).map Station.radio = radios := by
  induction radios generalizing index fixedBit with
  | nil => rfl
  | cons radio radios ih => rw [stations, List.map_cons, ih]

/-- Fixed channels are numbered above the decoders. -/
theorem tagged_nodup {station : Station} (hfixed : decoders.length ≤ station.fixedBit) :
    ((tagged decoders placements station).map Prod.fst).Nodup := by
  rw [tagged, List.map_append, List.map_map, List.map_filterMap]
  have hbits : (station.radio.fixed.zipIdx.map
      (Prod.fst ∘ fun item : ChannelInfo × ℕ ↦ (station.fixedBit + item.2, item.1))) =
      (List.range station.radio.fixed.length).map fun index ↦ station.fixedBit + index := by
    have hindices : station.radio.fixed.zipIdx.map Prod.snd =
        List.range station.radio.fixed.length := by
      rw [List.zipIdx_map_snd, List.range_eq_range']
    rw [← hindices, List.map_map]
    rfl
  have hsublist : (decoders.zipIdx.filterMap fun item ↦
      ((placedOn placements item.1 station.radio.deviceSet).map fun placement ↦
        (item.2, carriedInfo item.1 placement.lane.stream)).map Prod.fst).Sublist
      (List.range decoders.length) := by
    have hindices : decoders.zipIdx.map Prod.snd = List.range decoders.length := by
      rw [List.zipIdx_map_snd, List.range_eq_range']
    rw [← hindices]
    induction decoders.zipIdx with
    | nil => exact .slnil
    | cons item items ih =>
      rw [List.filterMap_cons, List.map_cons]
      cases placedOn placements item.1 station.radio.deviceSet with
      | none => exact ih.cons _
      | some placement => exact ih.cons_cons _
  rw [hbits]
  refine List.nodup_append.mpr ⟨?_, hsublist.nodup List.nodup_range, ?_⟩
  · exact List.nodup_range.map fun a b h ↦ Nat.add_left_cancel h
  · intro bit hbit other hother hsame
    obtain ⟨index, -, rfl⟩ := List.mem_map.mp hbit
    have hlt := List.mem_range.mp (hsublist.subset hother)
    omega

end Stations

/-! ## Received channels as a set -/

/-- What callers promise: decoders and radios are told apart by their names, and every radio has
a stream. -/
structure Distinct (decoders : List Placeable) (radios : List Radio) : Prop where
  nodes : (decoders.map Placeable.node).Nodup
  sets : (radios.map Radio.deviceSet).Nodup
  streams : ∀ radio ∈ radios, 1 ≤ radio.capabilities.rxStreams

theorem Assigns.nodes_nodup {radios : List Radio} {decoders : List Placeable}
    {placements : List Placement} (hassigns : Assigns radios decoders placements)
    (hnodes : (decoders.map Placeable.node).Nodup) : (placements.map Placement.node).Nodup := by
  have hsame {decoders : List Placeable} {placements : List Placement}
      (hplaces : List.Forall₂ (Places radios) decoders placements) :
      placements.map Placement.node = decoders.map Placeable.node := by
    induction hplaces with
    | nil => rfl
    | cons hplace _ ih => rw [List.map_cons, List.map_cons, hplace.node_eq, ih]
  rw [hsame hassigns]
  exact (List.filter_sublist.map Placeable.node).nodup hnodes

/-- The numbers of the channels a radio hears once it has settled. -/
def heardAt (decoders : List Placeable) (placements : List Placement) (station : Station) :
    List ℕ :=
  ((tagged decoders placements station).filter fun item ↦
    station.radio.hears (station.radio.settled (carried decoders placements station.radio))
      item.2).map Prod.fst

theorem received_eq_length (decoders : List Placeable) (radios : List Radio)
    (placements : List Placement) (index fixedBit : ℕ) :
    received decoders radios placements =
      ((stations index fixedBit radios).flatMap (heardAt decoders placements)).length := by
  have hstation (station : Station) : (heardAt decoders placements station).length =
      ((carried decoders placements station.radio).filter (station.radio.hears
        (station.radio.settled (carried decoders placements station.radio)))).length := by
    rw [heardAt, List.length_map]
    generalize station.radio.settled (carried decoders placements station.radio) = tuning
    rw [← tagged_map_snd, List.filter_map, List.length_map]
    rfl
  rw [List.length_flatMap]
  simp only [hstation]
  conv_lhs => rw [received, ← stations_map_radio index fixedBit radios, List.map_map]
  rfl

section Received

variable {decoders : List Placeable} {radios : List Radio} {placements : List Placement}

theorem mem_heardAt {station : Station} {bit : ℕ}
    (hmem : bit ∈ heardAt decoders placements station) :
    ∃ channel, (bit, channel) ∈ tagged decoders placements station ∧
      station.radio.hears (station.radio.settled (carried decoders placements station.radio))
        channel = true := by
  obtain ⟨⟨found, channel⟩, hitem, rfl⟩ := List.mem_map.mp hmem
  exact ⟨channel, List.mem_filter.mp hitem⟩

/-- No channel is carried by two radios. -/
theorem tagged_disjoint (hnodes : (placements.map Placement.node).Nodup) {a b : Station}
    (ha : decoders.length ≤ a.fixedBit) (hb : decoders.length ≤ b.fixedBit)
    (hapart : a.fixedBit + a.radio.fixed.length ≤ b.fixedBit)
    (hsets : a.radio.deviceSet ≠ b.radio.deviceSet) {bit : ℕ} {first second : ChannelInfo}
    (hfirst : (bit, first) ∈ tagged decoders placements a)
    (hsecond : (bit, second) ∈ tagged decoders placements b) : False := by
  have hfixed {station : Station} {index : ℕ} {channel : ChannelInfo}
      (hget : station.radio.fixed[index]? = some channel) : index < station.radio.fixed.length :=
    (List.getElem?_eq_some_iff.mp hget).1
  have hplaced {decoder : Placeable} {index : ℕ} (hget : decoders[index]? = some decoder) :
      index < decoders.length := (List.getElem?_eq_some_iff.mp hget).1
  rcases mem_tagged.mp hfirst with ⟨i, hi, rfl⟩ | ⟨decoder, hdecoder, placement, hon, -⟩
  · have hlt := hfixed hi
    rcases mem_tagged.mp hsecond with ⟨j, -, hbit⟩ | ⟨decoder, hdecoder, -⟩
    · omega
    · have hlow := hplaced hdecoder
      omega
  · have hlow := hplaced hdecoder
    rcases mem_tagged.mp hsecond with ⟨j, -, hbit⟩ | ⟨other, hother, placement', hon', -⟩
    · omega
    · rw [hdecoder, Option.some.injEq] at hother
      subst hother
      obtain ⟨hmem, hnode, hset⟩ := placedOn_mem hon
      obtain ⟨hmem', hnode', hset'⟩ := placedOn_mem hon'
      rw [eq_of_node_eq hnodes hmem hmem' (hnode.trans hnode'.symm)] at hset
      exact hsets (hset.symm.trans hset')

theorem heard_nodup (hdistinct : Distinct decoders radios)
    (hassigns : Assigns radios decoders placements) :
    ((stations 0 decoders.length radios).flatMap (heardAt decoders placements)).Nodup := by
  have hnodes := hassigns.nodes_nodup hdistinct.nodes
  have habove {station : Station} (hmem : station ∈ stations 0 decoders.length radios) :
      decoders.length ≤ station.fixedBit := (mem_stations hmem).2.2.1
  rw [List.nodup_flatMap]
  refine ⟨?_, ?_⟩
  · intro station hmem
    exact (List.filter_sublist.map Prod.fst).nodup (tagged_nodup (habove hmem))
  · refine (stations_pairwise 0 decoders.length hdistinct.sets).imp_of_mem ?_
    intro a b ha hb hapart bit hfirst hsecond
    obtain ⟨first, hfirst, -⟩ := mem_heardAt hfirst
    obtain ⟨second, hsecond, -⟩ := mem_heardAt hsecond
    exact tagged_disjoint hnodes (habove ha) (habove hb) hapart.1 hapart.2 hfirst hsecond

/-- The set of channels received. -/
def receivedBits (decoders : List Placeable) (radios : List Radio) (placements : List Placement) :
    Finset ℕ :=
  ((stations 0 decoders.length radios).flatMap (heardAt decoders placements)).toFinset

theorem card_receivedBits (hdistinct : Distinct decoders radios)
    (hassigns : Assigns radios decoders placements) :
    received decoders radios placements = (receivedBits decoders radios placements).card := by
  rw [receivedBits, List.toFinset_card_of_nodup (heard_nodup hdistinct hassigns)]
  exact received_eq_length decoders radios placements 0 decoders.length

theorem mem_receivedBits {bit : ℕ} :
    bit ∈ receivedBits decoders radios placements ↔
      ∃ station ∈ stations 0 decoders.length radios, bit ∈ heardAt decoders placements station := by
  rw [receivedBits, List.mem_toFinset, List.mem_flatMap]

/-- Nothing receives more channels than there are. -/
theorem received_le_total (hdistinct : Distinct decoders radios)
    (hassigns : Assigns radios decoders placements) :
    received decoders radios placements ≤ totalOf decoders radios := by
  rw [card_receivedBits hdistinct hassigns, ← Finset.card_range (totalOf decoders radios)]
  refine Finset.card_le_card ?_
  intro bit hbit
  obtain ⟨station, hstation, hheard⟩ := mem_receivedBits.mp hbit
  obtain ⟨channel, htagged, -⟩ := mem_heardAt hheard
  obtain ⟨-, -, -, hhigh⟩ := mem_stations hstation
  rw [Finset.mem_range]
  rcases mem_tagged.mp htagged with ⟨index, hget, rfl⟩ | ⟨decoder, hget, -⟩
  · have hlt := (List.getElem?_eq_some_iff.mp hget).1
    rw [totalOf]
    omega
  · have hlt := (List.getElem?_eq_some_iff.mp hget).1
    rw [totalOf]
    omega

end Received

end Sdrmm.Allocator
