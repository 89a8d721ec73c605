import Sdrmm.Engine.PlacementReceived

/-!
# Assignments against the model

Two inequalities tie the model to what radios do once they have tuned.  `received_le_reach`: no
assignment receives more than the search can reach.  `card_le_received`: a choice of the search,
turned into an assignment, receives at least what the choice covers.

Both need that every radio which tunes freely is `Tunable`; without that the planner leaves such a
radio where it is even if its tuner does not reach there, which the model does not count on.
-/

namespace Sdrmm.Allocator

open Planning

/-! ## Where a radio settles -/

namespace Radio

variable (radio : Radio)

/-- Where a stream ends up when the radio carries some channels. -/
def centerAt (channels : List ChannelInfo) (stream : ℕ) : ℚ :=
  centerOf (radio.settled channels) stream radio.capabilities.perStream

/-- The stream whose centre a channel depends on. -/
def siteOf (channel : ChannelInfo) : ℕ := streamOf radio ⟨radio.deviceSet, channel.stream⟩

variable {radio}

theorem sampleRateOf_settled (channels : List ChannelInfo) :
    sampleRateOf (radio.settled channels) = radio.rate := by
  rw [settled, rate]
  split_ifs
  · exact sampleRateOf_planned _ _ _
  · rfl

theorem hears_settled (channels : List ChannelInfo) (channel : ChannelInfo) :
    radio.hears (radio.settled channels) channel =
      hearsAt (radio.centerAt channels (radio.siteOf channel)) radio.rate channel.settings := by
  have hcenter : centerOf (radio.settled channels) channel.stream radio.capabilities.perStream =
      radio.centerAt channels (radio.siteOf channel) := by
    rw [centerAt, siteOf, streamOf]
    split_ifs with hscope
    · rfl
    · rw [centerOf_shared (by simpa using hscope), centerOf_shared (by simpa using hscope)]
  rw [hears, Planning.hears, hcenter, sampleRateOf_settled]

theorem filter_siteOf {stream : ℕ}
    (hstream : radio.capabilities.perStream.tuning = false → stream = 0)
    (channels : List ChannelInfo) :
    (channels.filter fun channel ↦ radio.siteOf channel = stream) =
      channelsOn radio.capabilities.perStream channels stream := by
  rw [channelsOn]
  split_ifs with hscope
  · simp only [siteOf, streamOf, hscope, if_true]
  · have hzero := hstream (by simpa using hscope)
    simp only [siteOf, streamOf, hscope, hzero, Bool.false_eq_true, if_false, decide_true,
      List.filter_true]

/-- On a radio that tunes freely the model and the planner agree on which streams move. -/
theorem moves_eq_follows (hfree : radio.tunesFreely = true)
    (hstreams : 1 ≤ radio.capabilities.rxStreams) {stream : ℕ}
    (hstream : radio.capabilities.perStream.tuning = false → stream = 0) :
    radio.moves stream = Planning.follows radio.capabilities radio.settings stream := by
  rw [moves, Radio.follows, Planning.follows, hfree, Bool.true_and, Bool.and_comm, hasStream,
    Nat.max_eq_left hstreams]
  cases hscope : radio.capabilities.perStream.tuning with
  | true => simp
  | false =>
    have hlt : stream < radio.capabilities.rxStreams := by
      rw [hstream hscope]
      exact hstreams
    simp [hlt]

/-- A stream settles at a centre open to it, or hears nothing there, and no other centre open to it
hears more. -/
theorem centerAt_spec (htunable : radio.tunesFreely = true → Tunable radio.capabilities radio.rate)
    (hstreams : 1 ≤ radio.capabilities.rxStreams) {stream : ℕ}
    (hstream : radio.capabilities.perStream.tuning = false → stream = 0)
    (channels : List ChannelInfo) :
    (radio.Open stream (radio.centerAt channels stream) ∨
      heardCount (channelsOn radio.capabilities.perStream channels stream)
        (radio.centerAt channels stream) radio.rate = 0) ∧
    ∀ other, radio.Open stream other →
      heardCount (channelsOn radio.capabilities.perStream channels stream) other radio.rate ≤
        heardCount (channelsOn radio.capabilities.perStream channels stream)
          (radio.centerAt channels stream) radio.rate := by
  by_cases hmoves : radio.moves stream = true
  · have hfree : radio.tunesFreely = true := by
      rw [moves, Radio.follows, Bool.and_eq_true, Bool.and_eq_true] at hmoves
      exact hmoves.2.1
    have hfollows := (moves_eq_follows hfree hstreams hstream).symm.trans hmoves
    have hcenter : radio.centerAt channels stream = centerOf
        (planned radio.capabilities radio.settings channels) stream
        radio.capabilities.perStream := by
      rw [centerAt, settled, if_pos hfree]
    simp only [Open, hmoves, if_true, hcenter]
    exact planned_hears (htunable hfree) channels hfollows
  · have hcenter : radio.centerAt channels stream = radio.current stream := by
      rw [centerAt, settled, current]
      split_ifs with hfree
      · rw [moves_eq_follows hfree hstreams hstream] at hmoves
        rw [centerOf_planned, if_neg hmoves]
      · rfl
    simp only [Open, hmoves, if_false, hcenter, Bool.false_eq_true]
    refine ⟨.inl trivial, ?_⟩
    rintro other rfl
    exact le_rfl

end Radio

/-- Every radio that tunes freely can be tuned by the planner. -/
def Tunes (radios : List Radio) : Prop :=
  ∀ radio ∈ radios, radio.tunesFreely = true → Tunable radio.capabilities radio.rate

/-! ## Channels and sites -/

theorem mem_streamsOf {lanes : List (List Lane)} {radio : Radio} {stream : ℕ} :
    stream ∈ streamsOf lanes radio ↔
      (∃ lane ∈ lanes.flatten, lane.deviceSet = radio.deviceSet ∧ streamOf radio lane = stream) ∨
      ∃ channel ∈ radio.fixed, radio.siteOf channel = stream := by
  rw [streamsOf, mem_destutter_insertionSort, List.mem_append, List.mem_map, List.mem_map]
  simp only [List.mem_filter, decide_eq_true_iff, and_assoc]
  rfl

theorem streamsOf_nodup (lanes : List (List Lane)) (radio : Radio) :
    (streamsOf lanes radio).Nodup := by
  rw [streamsOf, destutter_insertionSort]
  exact List.nodup_dedup _

theorem mem_sites {lanes : List (List Lane)} {all : List Station} {site : Site} :
    site ∈ sites lanes all ↔
      site.station ∈ all ∧ site.stream ∈ streamsOf lanes site.station.radio := by
  rw [sites, List.mem_flatMap]
  constructor
  · rintro ⟨station, hstation, hmem⟩
    obtain ⟨stream, hstream, rfl⟩ := List.mem_map.mp hmem
    exact ⟨hstation, hstream⟩
  · rintro ⟨hstation, hstream⟩
    exact ⟨site.station, hstation, List.mem_map.mpr ⟨site.stream, hstream, rfl⟩⟩

theorem stream_eq_zero {lanes : List (List Lane)} {radio : Radio} {stream : ℕ}
    (hstream : stream ∈ streamsOf lanes radio)
    (hscope : radio.capabilities.perStream.tuning = false) : stream = 0 := by
  have hshared (lane : Lane) : streamOf radio lane = 0 := by
    rw [streamOf, hscope, if_neg (by decide)]
  rcases mem_streamsOf.mp hstream with ⟨lane, -, -, rfl⟩ | ⟨channel, -, rfl⟩
  · exact hshared lane
  · exact hshared _

theorem Assigns.usable {radios : List Radio} {decoders : List Placeable}
    {placements : List Placement} (hassigns : Assigns radios decoders placements)
    (hnodes : (decoders.map Placeable.node).Nodup) {decoder : Placeable}
    (hdecoder : decoder ∈ decoders) {placement : Placement} (hmem : placement ∈ placements)
    (hnode : placement.node = decoder.node) : placement.lane ∈ usable decoder radios := by
  obtain ⟨other, hother, hplaces⟩ : ∃ other ∈ decoders, Places radios other placement := by
    obtain ⟨index, hindex, rfl⟩ := List.mem_iff_getElem.mp hmem
    have hlt : index < (decoders.filter fun decoder ↦ Allocator.usable decoder radios ≠ []).length :=
      hassigns.length_eq ▸ hindex
    exact ⟨_, (List.mem_filter.mp (List.getElem_mem hlt)).1,
      (List.forall₂_iff_get.mp hassigns).2 index hlt hindex⟩
  have hsame : other = decoder :=
    List.inj_on_of_nodup_map hnodes hother hdecoder (hplaces.node_eq.symm.trans hnode)
  exact hsame ▸ hplaces.usable

section Sites

variable {decoders : List Placeable} {radios : List Radio} {placements : List Placement}
  {lanes : List (List Lane)}

/-- A carried channel has a site, and a band of its number there. -/
theorem tagged_site (hlanes : lanes = decoders.map fun decoder ↦ usable decoder radios)
    (hnodes : (decoders.map Placeable.node).Nodup) (hassigns : Assigns radios decoders placements)
    {station : Station} {bit : ℕ} {channel : ChannelInfo}
    (htagged : (bit, channel) ∈ tagged decoders placements station) :
    station.radio.siteOf channel ∈ streamsOf lanes station.radio ∧
      Band.new bit channel.settings ∈
        Site.bands decoders lanes ⟨station, station.radio.siteOf channel⟩ := by
  rcases mem_tagged.mp htagged with
    ⟨index, hget, rfl⟩ | ⟨decoder, hget, placement, hplaced, rfl⟩
  · refine ⟨mem_streamsOf.mpr (.inr ⟨channel, List.mem_of_getElem? hget, rfl⟩), ?_⟩
    refine mem_bandsOf.mpr (.inr ⟨index, channel, hget, ?_, rfl⟩)
    cases hscope : station.radio.capabilities.perStream.tuning with
    | false => exact .inl rfl
    | true =>
      right
      simp only [Radio.siteOf, streamOf, hscope, if_true]
  · obtain ⟨hmem, hnode, hset⟩ := placedOn_mem hplaced
    have husable := hassigns.usable hnodes (List.mem_of_getElem? hget) hmem hnode
    have hgetD : lanes.getD bit [] = usable decoder radios := by
      rw [hlanes, List.getD_eq_getElem?_getD, List.getElem?_map, hget, Option.map_some,
        Option.getD_some]
    have hflatten : placement.lane ∈ lanes.flatten := by
      rw [hlanes]
      exact List.mem_flatten.mpr
        ⟨_, List.mem_map_of_mem (List.mem_of_getElem? hget), husable⟩
    refine ⟨mem_streamsOf.mpr (.inl ⟨placement.lane, hflatten, hset, rfl⟩), ?_⟩
    exact mem_bandsOf.mpr
      (.inl ⟨bit, decoder, hget, ⟨placement.lane, hgetD ▸ husable, hset, rfl⟩, rfl⟩)

/-- A band and a carried channel of the same number belong to the same channel. -/
theorem band_eq_of_tagged {station : Station} (hfixed : decoders.length ≤ station.fixedBit)
    {stream : ℕ} {band : Band} (hband : band ∈ Site.bands decoders lanes ⟨station, stream⟩)
    {channel : ChannelInfo} (htagged : (band.bit, channel) ∈ tagged decoders placements station) :
    band = Band.new band.bit channel.settings := by
  have hbound {index : ℕ} {decoder : Placeable} (hget : decoders[index]? = some decoder) :
      index < decoders.length := (List.getElem?_eq_some_iff.mp hget).1
  rcases mem_bandsOf.mp hband with ⟨bit, decoder, hget, -, rfl⟩ | ⟨bit, fixed, hget, -, rfl⟩
  · have hlt := hbound hget
    rcases mem_tagged.mp htagged with ⟨index, -, hbit⟩ | ⟨other, hother, placement, -, rfl⟩
    · change bit = station.fixedBit + index at hbit
      omega
    · change decoders[bit]? = some other at hother
      rw [hget, Option.some.injEq] at hother
      rw [hother]
      rfl
  · rcases mem_tagged.mp htagged with ⟨index, hindex, hbit⟩ | ⟨other, hother, -⟩
    · have hsame : bit = index := Nat.add_left_cancel hbit
      rw [← hsame, hget, Option.some.injEq] at hindex
      rw [hindex]
      rfl
    · have hlt := hbound hother
      change station.fixedBit + bit < decoders.length at hlt
      omega

end Sites

/-! ## No assignment receives more than the search can reach -/

/-- The model of some decoders and radios, with its sites in the order of the domains. -/
structure Models (decoders : List Placeable) (radios : List Radio) {total : ℕ}
    (model : Model total) (order : List Site) : Prop where
  lanes_eq : model.lanes = decoders.map fun decoder ↦ usable decoder radios
  perm : order.Perm (sites model.lanes (stations 0 decoders.length radios))
  fits : List.Forall₂ (Fits decoders model.lanes) order model.domains

section Reach

variable {decoders : List Placeable} {radios : List Radio} {placements : List Placement}
  {total : ℕ} {model : Model total} {order : List Site}

/-- What holds of a site in the model. -/
theorem Models.site (hmodels : Models decoders radios model order) {site : Site}
    (hsite : site ∈ order) :
    site.station ∈ stations 0 decoders.length radios ∧ site.station.radio ∈ radios ∧
      decoders.length ≤ site.station.fixedBit ∧
      (site.station.radio.capabilities.perStream.tuning = false → site.stream = 0) := by
  obtain ⟨hstation, hstream⟩ := mem_sites.mp (hmodels.perm.mem_iff.mp hsite)
  obtain ⟨hget, -, habove, -⟩ := mem_stations hstation
  exact ⟨hstation, List.mem_of_getElem? hget, habove, stream_eq_zero hstream⟩

theorem moves_rate_pos (htunes : Tunes radios) {radio : Radio} (hradio : radio ∈ radios)
    {stream : ℕ} (hmoves : radio.moves stream = true) : 0 < radio.rate := by
  rw [Radio.moves, Radio.follows, Bool.and_eq_true, Bool.and_eq_true] at hmoves
  exact (htunes radio hradio hmoves.2.1).rate_pos

/-- Whatever a site hears once settled lies in `chosen`. -/
def HeardWithin (decoders : List Placeable) (placements : List Placement) (site : Site)
    (chosen : Finset ℕ) : Prop :=
  ∀ bit channel, (bit, channel) ∈ tagged decoders placements site.station →
    site.station.radio.hears
      (site.station.radio.settled (carried decoders placements site.station.radio)) channel →
    site.station.radio.siteOf channel = site.stream → bit ∈ chosen

/-- What a site hears lies in one option of its domain. -/
theorem exists_option (hdistinct : Distinct decoders radios) (htunes : Tunes radios)
    (hmodels : Models decoders radios model order) (hassigns : Assigns radios decoders placements)
    {site : Site} (hsite : site ∈ order) {domain : Domain total}
    (hfits : Fits decoders model.lanes site domain) :
    ∃ option ∈ domain.options, HeardWithin decoders placements site option.bits := by
  obtain ⟨-, hradio, -, hzero⟩ := hmodels.site hsite
  set radio := site.station.radio with hradioEq
  set channels := carried decoders placements radio with hchannels
  have hcenter := (Radio.centerAt_spec (htunes radio hradio) (hdistinct.streams radio hradio) hzero
    channels).1
  rcases hcenter with hopen | hdeaf
  · obtain ⟨option, hoption, hsubset⟩ := hfits.options.complete
      (fun hmoves ↦ moves_rate_pos htunes hradio hmoves) _ hopen
    refine ⟨option, hoption, ?_⟩
    intro bit channel htagged hhears hstream
    rw [Radio.hears_settled, hstream] at hhears
    have hband := (tagged_site hmodels.lanes_eq hdistinct.nodes hassigns htagged).2
    rw [← hradioEq, hstream] at hband
    exact hsubset (mem_heardBits.mpr ⟨_, hband, hhears, rfl⟩)
  · obtain ⟨option, hoption⟩ := List.exists_mem_of_ne_nil _ hfits.options.nonempty
    refine ⟨option, hoption, ?_⟩
    intro bit channel htagged hhears hstream
    exfalso
    rw [Radio.hears_settled, hstream] at hhears
    have hcarried : channel ∈ channels := by
      rw [hchannels, hradioEq, ← tagged_map_snd]
      exact List.mem_map_of_mem htagged
    rw [← Radio.filter_siteOf hzero, heardCount, List.length_eq_zero_iff] at hdeaf
    have hmem : channel ∈ ((channels.filter fun channel ↦ radio.siteOf channel = site.stream).filter
        fun channel ↦ hearsAt (radio.centerAt channels site.stream) radio.rate
          channel.settings) :=
      List.mem_filter.mpr ⟨List.mem_filter.mpr ⟨hcarried, decide_eq_true hstream⟩, hhears⟩
    rw [hdeaf] at hmem
    exact absurd hmem (by simp)

/-- One option for each site makes a choice of one option per domain. -/
theorem exists_selection {P : Site → Finset ℕ → Prop} {domains : List (Domain total)}
    {lanes : List (List Lane)} (hfits : List.Forall₂ (Fits decoders lanes) order domains)
    (hoption : ∀ site ∈ order, ∀ domain : Domain total, Fits decoders lanes site domain →
      ∃ option ∈ domain.options, P site option.bits) :
    ∃ selection, List.Forall₂ (· ∈ ·) selection (Search.families domains) ∧
      ∀ site ∈ order, ∃ chosen ∈ selection, P site chosen := by
  induction hfits with
  | nil => exact ⟨[], .nil, by simp⟩
  | @cons site domain order domains hfit _ ih =>
    obtain ⟨option, hmem, hholds⟩ := hoption site List.mem_cons_self domain hfit
    obtain ⟨selection, hselection, hall⟩ :=
      ih fun other hother ↦ hoption other (List.mem_cons_of_mem site hother)
    refine ⟨option.bits :: selection, .cons (List.mem_map_of_mem hmem) hselection, ?_⟩
    intro other hother
    rcases List.mem_cons.mp hother with rfl | hother
    · exact ⟨option.bits, List.mem_cons_self, hholds⟩
    · obtain ⟨chosen, hchosen, hheld⟩ := hall other hother
      exact ⟨chosen, List.mem_cons_of_mem _ hchosen, hheld⟩

theorem received_le_reach (hdistinct : Distinct decoders radios) (htunes : Tunes radios)
    (hmodels : Models decoders radios model order)
    (hassigns : Assigns radios decoders placements) :
    received decoders radios placements ≤ Cover.reach (Search.families model.domains) ∅ := by
  obtain ⟨selection, hselection, hall⟩ := exists_selection hmodels.fits fun site hsite domain hfit ↦
    exists_option hdistinct htunes hmodels hassigns hsite hfit
  rw [card_receivedBits hdistinct hassigns]
  refine (Finset.card_le_card ?_).trans (Cover.card_le_reach hselection ∅)
  intro bit hbit
  obtain ⟨station, hstation, hheard⟩ := mem_receivedBits.mp hbit
  obtain ⟨channel, htagged, hhears⟩ := mem_heardAt hheard
  have hstream := (tagged_site hmodels.lanes_eq hdistinct.nodes hassigns htagged).1
  have hsite : (⟨station, station.radio.siteOf channel⟩ : Site) ∈ order :=
    hmodels.perm.mem_iff.mpr (mem_sites.mpr ⟨hstation, hstream⟩)
  obtain ⟨chosen, hchosen, hholds⟩ := hall _ hsite
  rw [Finset.empty_union, Cover.mem_union]
  exact ⟨chosen, hchosen, hholds bit channel htagged hhears rfl⟩

end Reach

/-! ## A choice of the search is received -/

section Choices

variable {decoders : List Placeable} {radios : List Radio} {placements : List Placement}
  {total : ℕ} {model : Model total} {order : List Site} {lanes : List (List Lane)}

/-- The set a site's domain is asked to hear, given by an option number. -/
def chosenBits (choice : Site × Domain total × ℕ) : Finset ℕ :=
  (Search.optionAt choice.2.1 choice.2.2).bits

/-- The sites with their domains and the options picked there. -/
structure Choices (decoders : List Placeable) (lanes : List (List Lane)) (order : List Site)
    (domains : List (Domain total)) (picks : List ℕ)
    (choices : List (Site × Domain total × ℕ)) : Prop where
  sites_eq : choices.map Prod.fst = order
  domains_eq : choices.map Prod.snd = domains.zip picks
  fits : ∀ choice ∈ choices, Fits decoders lanes choice.1 choice.2.1
  picks_lt : ∀ choice ∈ choices, choice.2.2 < choice.2.1.options.length

theorem exists_choices {domains : List (Domain total)} {picks : List ℕ}
    (hfits : List.Forall₂ (Fits decoders lanes) order domains)
    (hselects : Search.Selects domains picks) :
    ∃ choices, Choices decoders lanes order domains picks choices := by
  induction hfits generalizing picks with
  | nil => exact ⟨[], rfl, rfl, by simp, by simp⟩
  | @cons site domain order domains hfit _ ih =>
    obtain ⟨index, rest, hindex, hrest, rfl⟩ := List.forall₂_cons_left_iff.mp hselects
    obtain ⟨choices, hsites, hdomains, hall, hpicks⟩ := ih hrest
    refine ⟨(site, domain, index) :: choices, ?_, ?_, ?_, ?_⟩
    · rw [List.map_cons, hsites]
    · rw [List.map_cons, hdomains, List.zip_cons_cons]
    · exact List.forall_mem_cons.mpr ⟨hfit, hall⟩
    · exact List.forall_mem_cons.mpr ⟨hindex, hpicks⟩

theorem Choices.picked_eq {domains : List (Domain total)} {picks : List ℕ}
    {choices : List (Site × Domain total × ℕ)}
    (hchoices : Choices decoders lanes order domains picks choices) :
    Search.picked domains picks = choices.map chosenBits := by
  have hzip : Search.picked domains picks = (domains.zip picks).map fun pair ↦
      (Search.optionAt pair.1 pair.2).bits := by
    rw [Search.picked, List.zip, List.map_zipWith]
  rw [hzip, ← hchoices.domains_eq, List.map_map]
  rfl

/-- A lane is covered when the option picked for its site holds the channel. -/
theorem Choices.covers_iff (hmodels : Models decoders radios model order) {picks : List ℕ}
    {choices : List (Site × Domain total × ℕ)}
    (hchoices : Choices decoders lanes order model.domains picks choices) (bit : ℕ) (lane : Lane) :
    model.covers radios picks bit lane = true ↔
      ∃ choice ∈ choices, choice.1.station.radio.deviceSet = lane.deviceSet ∧
        streamOf choice.1.station.radio lane = choice.1.stream ∧ bit ∈ chosenBits choice := by
  have hchoice (choice : Site × Domain total × ℕ) (hmem : choice ∈ choices) :
      ((radios[choice.2.1.radio]?).any (fun radio ↦
        decide (radio.deviceSet = lane.deviceSet ∧ streamOf radio lane = choice.2.1.stream)) &&
        (choice.2.1.options[choice.2.2]?).any fun coverage ↦ coverage.contains bit) = true ↔
      choice.1.station.radio.deviceSet = lane.deviceSet ∧
        streamOf choice.1.station.radio lane = choice.1.stream ∧ bit ∈ chosenBits choice := by
    have hfit := hchoices.fits choice hmem
    have hlt := hchoices.picks_lt choice hmem
    have hsite : choice.1 ∈ order := hchoices.sites_eq ▸ List.mem_map_of_mem hmem
    obtain ⟨hget, -⟩ := mem_stations (hmodels.site hsite).1
    rw [Nat.sub_zero, ← hfit.radio_eq] at hget
    rw [hget, hfit.stream_eq, List.getElem?_eq_getElem hlt, Option.any_some, Option.any_some,
      Bool.and_eq_true, decide_eq_true_iff, chosenBits, Coverage.mem_bits, Search.optionAt,
      List.getD_eq_getElem?_getD, List.getElem?_eq_getElem hlt, Option.getD_some, and_assoc]
  rw [Model.covers, ← hchoices.domains_eq, List.any_map, List.any_eq_true]
  constructor
  · rintro ⟨choice, hmem, hcovers⟩
    exact ⟨choice, hmem, (hchoice choice hmem).mp hcovers⟩
  · rintro ⟨choice, hmem, hcovers⟩
    exact ⟨choice, hmem, (hchoice choice hmem).mpr hcovers⟩

/-- The numbers of a set that a site carries. -/
def carriedOn (decoders : List Placeable) (placements : List Placement) (site : Site)
    (chosen : Finset ℕ) : List ℕ :=
  ((tagged decoders placements site.station).filter fun item ↦
    site.station.radio.siteOf item.2 = site.stream ∧ item.1 ∈ chosen).map Prod.fst

theorem mem_carriedOn {site : Site} {chosen : Finset ℕ} {bit : ℕ} {channel : ChannelInfo}
    (htagged : (bit, channel) ∈ tagged decoders placements site.station)
    (hstream : site.station.radio.siteOf channel = site.stream) (hbit : bit ∈ chosen) :
    bit ∈ carriedOn decoders placements site chosen :=
  List.mem_map.mpr ⟨(bit, channel),
    List.mem_filter.mpr ⟨htagged, decide_eq_true ⟨hstream, hbit⟩⟩, rfl⟩

/-- Whatever a choice covers is carried by some site that is asked to hear it. -/
theorem exists_carriedOn (hdistinct : Distinct decoders radios)
    (hmodels : Models decoders radios model order) {picks : List ℕ}
    {choices : List (Site × Domain total × ℕ)}
    (hchoices : Choices decoders model.lanes order model.domains picks choices)
    {choice : Site × Domain total × ℕ} (hmem : choice ∈ choices) {bit : ℕ}
    (hbit : bit ∈ chosenBits choice) :
    ∃ choice ∈ choices, bit ∈ carriedOn decoders (project decoders radios model picks) choice.1
      (chosenBits choice) := by
  have hsite {choice : Site × Domain total × ℕ} (hmem : choice ∈ choices) : choice.1 ∈ order :=
    hchoices.sites_eq ▸ List.mem_map_of_mem hmem
  have hassigns := project_assigns hmodels.lanes_eq picks
  obtain ⟨band, hband, rfl⟩ : ∃ band ∈ choice.1.bands decoders model.lanes, band.bit = bit := by
    rcases (hchoices.fits choice hmem).options.sound _
      (Search.optionAt_mem (hchoices.picks_lt choice hmem)) with hempty | ⟨center, -, hbits⟩
    · rw [chosenBits, hempty] at hbit
      exact absurd hbit (Finset.notMem_empty bit)
    · rw [chosenBits, hbits] at hbit
      obtain ⟨band, hband, -, hsame⟩ := mem_heardBits.mp hbit
      exact ⟨band, hband, hsame⟩
  rcases mem_bandsOf.mp hband with
    ⟨bit, decoder, hget, ⟨lane, hlane, hset, hstream⟩, rfl⟩ | ⟨index, channel, hget, hstream, rfl⟩
  · rw [lanes_getD hmodels.lanes_eq hget] at hlane
    have hcovers := (hchoices.covers_iff hmodels bit lane).mpr
      ⟨choice, hmem, hset.symm, hstream, hbit⟩
    obtain ⟨placement, hplacement, hnode, hcovered⟩ :=
      exists_project hmodels.lanes_eq hget hlane hcovers
    obtain ⟨other, hother, hotherSet, hotherStream, hotherBit⟩ :=
      (hchoices.covers_iff hmodels bit placement.lane).mp hcovered
    have hplaced := placedOn_eq (hassigns.nodes_nodup hdistinct.nodes) hplacement hnode
    rw [← hotherSet] at hplaced
    exact ⟨other, hother, mem_carriedOn
      (mem_tagged.mpr (.inr ⟨decoder, hget, placement, hplaced, rfl⟩)) hotherStream hotherBit⟩
  · refine ⟨choice, hmem, mem_carriedOn (mem_tagged.mpr (.inl ⟨index, hget, rfl⟩)) ?_ hbit⟩
    cases hscope : choice.1.station.radio.capabilities.perStream.tuning with
    | true =>
      rw [hscope] at hstream
      simp only [Radio.siteOf, streamOf, hscope, if_true]
      exact hstream.resolve_left (by decide)
    | false =>
      rw [(hmodels.site (hsite hmem)).2.2.2 hscope]
      simp only [Radio.siteOf, streamOf, hscope, Bool.false_eq_true, if_false]

/-- How many channels of a site are heard once its radio has settled. -/
def siteHeard (decoders : List Placeable) (placements : List Placement) (site : Site) : ℕ :=
  (((tagged decoders placements site.station).filter fun item ↦
    site.station.radio.hears
      (site.station.radio.settled (carried decoders placements site.station.radio)) item.2).filter
    fun item ↦ site.station.radio.siteOf item.2 = site.stream).length

theorem countP_tagged (decoders : List Placeable) (placements : List Placement) {site : Site}
    (hzero : site.station.radio.capabilities.perStream.tuning = false → site.stream = 0)
    (center : ℚ) :
    (tagged decoders placements site.station).countP (fun item ↦
      hearsAt center site.station.radio.rate item.2.settings &&
        decide (site.station.radio.siteOf item.2 = site.stream)) =
      heardCount (channelsOn site.station.radio.capabilities.perStream
        (carried decoders placements site.station.radio) site.stream) center
        site.station.radio.rate := by
  rw [← Radio.filter_siteOf hzero, heardCount, List.filter_filter, ← tagged_map_snd,
    ← List.countP_eq_length_filter, List.countP_map]
  rfl

theorem siteHeard_eq (decoders : List Placeable) (placements : List Placement) {site : Site}
    (hzero : site.station.radio.capabilities.perStream.tuning = false → site.stream = 0) :
    siteHeard decoders placements site =
      heardCount (channelsOn site.station.radio.capabilities.perStream
        (carried decoders placements site.station.radio) site.stream)
        (site.station.radio.centerAt (carried decoders placements site.station.radio) site.stream)
        site.station.radio.rate := by
  rw [siteHeard, List.filter_filter, ← countP_tagged decoders placements hzero,
    ← List.countP_eq_length_filter]
  refine List.countP_congr ?_
  intro item _
  rw [Radio.hears_settled]
  by_cases hstream : site.station.radio.siteOf item.2 = site.stream
  · rw [hstream, Bool.and_comm]
  · simp [hstream]

/-- A site hears at least as much as any option of its domain promises. -/
theorem carriedOn_le (hdistinct : Distinct decoders radios) (htunes : Tunes radios)
    (hmodels : Models decoders radios model order) {site : Site} (hsite : site ∈ order)
    {domain : Domain total} (hfits : Fits decoders model.lanes site domain)
    {option : Coverage total} (hoption : option ∈ domain.options) :
    (carriedOn decoders placements site option.bits).length ≤
      siteHeard decoders placements site := by
  obtain ⟨-, hradio, habove, hzero⟩ := hmodels.site hsite
  rw [carriedOn, List.length_map, ← List.countP_eq_length_filter]
  rcases hfits.options.sound option hoption with hempty | ⟨center, hopen, hbits⟩
  · have hnone : (tagged decoders placements site.station).countP (fun item ↦
        decide (site.station.radio.siteOf item.2 = site.stream ∧ item.1 ∈ option.bits)) = 0 := by
      rw [List.countP_eq_zero]
      intro item _
      simp [hempty]
    rw [hnone]
    exact Nat.zero_le _
  · rw [siteHeard_eq decoders placements hzero]
    refine le_trans ?_ ((Radio.centerAt_spec (htunes _ hradio) (hdistinct.streams _ hradio) hzero
      (carried decoders placements site.station.radio)).2 center hopen)
    rw [← countP_tagged decoders placements hzero center]
    refine List.countP_mono_left ?_
    intro item hitem hchosen
    obtain ⟨hstream, hbit⟩ := decide_eq_true_iff.mp hchosen
    rw [hbits] at hbit
    obtain ⟨band, hband, hhears, hsame⟩ := mem_heardBits.mp hbit
    have htagged : (band.bit, item.2) ∈ tagged decoders placements site.station := by
      rw [hsame]
      exact hitem
    rw [band_eq_of_tagged habove hband htagged] at hhears
    rw [Bool.and_eq_true]
    exact ⟨hhears, decide_eq_true hstream⟩

theorem sum_siteHeard_le (decoders : List Placeable) (placements : List Placement)
    (lanes : List (List Lane)) (all : List Station) :
    ((sites lanes all).map (siteHeard decoders placements)).sum ≤
      (all.flatMap (heardAt decoders placements)).length := by
  induction all with
  | nil => simp [sites]
  | cons station all ih =>
    have hstation := Iter.sum_length_filter_le
      (fun item : ℕ × ChannelInfo ↦ station.radio.siteOf item.2)
      (streamsOf_nodup lanes station.radio)
      ((tagged decoders placements station).filter fun item ↦ station.radio.hears
        (station.radio.settled (carried decoders placements station.radio)) item.2)
    rw [sites, List.flatMap_cons, List.map_append, List.sum_append, List.map_map,
      List.flatMap_cons, List.length_append, ← sites]
    refine Nat.add_le_add ?_ ih
    rw [heardAt, List.length_map]
    exact hstation

/-- Placing the decoders as the search chose receives at least what the choice covers. -/
theorem card_le_received (hdistinct : Distinct decoders radios) (htunes : Tunes radios)
    (hmodels : Models decoders radios model order) {picks : List ℕ}
    (hselects : Search.Selects model.domains picks) :
    (Cover.union (Search.picked model.domains picks)).card ≤
      received decoders radios (project decoders radios model picks) := by
  obtain ⟨choices, hchoices⟩ := exists_choices hmodels.fits hselects
  set placements := project decoders radios model picks with hplacements
  have hcovered : Cover.union (Search.picked model.domains picks) ⊆
      Cover.union (choices.map fun choice ↦
        (carriedOn decoders placements choice.1 (chosenBits choice)).toFinset) := by
    intro bit hbit
    rw [hchoices.picked_eq, Cover.mem_union] at hbit
    obtain ⟨chosen, hchosen, hmem⟩ := hbit
    obtain ⟨choice, hchoice, rfl⟩ := List.mem_map.mp hchosen
    obtain ⟨other, hother, hcarried⟩ := exists_carriedOn hdistinct hmodels hchoices hchoice hmem
    exact Cover.mem_union.mpr
      ⟨_, List.mem_map_of_mem hother, List.mem_toFinset.mpr hcarried⟩
  calc (Cover.union (Search.picked model.domains picks)).card
      ≤ (Cover.union (choices.map fun choice ↦
          (carriedOn decoders placements choice.1 (chosenBits choice)).toFinset)).card :=
        Finset.card_le_card hcovered
    _ ≤ ((choices.map fun choice ↦ (carriedOn decoders placements choice.1
          (chosenBits choice)).toFinset).map Finset.card).sum := Cover.card_union_le_sum _
    _ ≤ (choices.map fun choice ↦ siteHeard decoders placements choice.1).sum := by
        rw [List.map_map]
        refine List.sum_le_sum ?_
        intro choice hchoice
        have hsite : choice.1 ∈ order := hchoices.sites_eq ▸ List.mem_map_of_mem hchoice
        exact (List.toFinset_card_le _).trans (carriedOn_le hdistinct htunes hmodels hsite
          (hchoices.fits choice hchoice) (Search.optionAt_mem (hchoices.picks_lt choice hchoice)))
    _ = ((sites model.lanes (stations 0 decoders.length radios)).map
          (siteHeard decoders placements)).sum := by
        rw [← (hmodels.perm.map (siteHeard decoders placements)).sum_eq, ← hchoices.sites_eq,
          List.map_map]
        rfl
    _ ≤ ((stations 0 decoders.length radios).flatMap (heardAt decoders placements)).length :=
        sum_siteHeard_le decoders placements model.lanes _
    _ = received decoders radios placements :=
        (received_eq_length decoders radios placements 0 decoders.length).symm

end Choices

end Sdrmm.Allocator
