import Sdrmm.Engine.PlacementSearch

/-!
# What the model knows of the radios

A domain of the model stands for one stream of one radio, and its options for what that stream can
be made to hear.  `options_spec` is that the options are exactly that up to subsets: each is what
some centre open to the stream hears, and whatever such a centre hears lies in an option.
`Model.new_spec` carries this over to all domains, which are the sites of the radios in some order.
-/

namespace Sdrmm.Allocator

open Planning

/-! ## Sorted lists without repetitions -/

section Sorted

variable {α : Type*} [LinearOrder α] (list : List α)

theorem destutter_insertionSort :
    (list.insertionSort (· ≤ ·)).destutter (· ≠ ·) = (list.insertionSort (· ≤ ·)).dedup :=
  (List.pairwise_insertionSort (· ≤ ·) list).destutter_eq_dedup

theorem mem_destutter_insertionSort {a : α} :
    a ∈ (list.insertionSort (· ≤ ·)).destutter (· ≠ ·) ↔ a ∈ list := by
  rw [destutter_insertionSort, List.mem_dedup, List.mem_insertionSort]

end Sorted

/-! ## Centres -/

theorem Band.hears_iff {rate : ℚ} (hrate : 0 < rate) (band : Band) (center : ℚ) :
    band.hears center rate = true ↔
      ∃ span, band.span rate = some span ∧ holds span center = true :=
  hearsAt_iff hrate ⟨0, ⟨band.frequency, ⟨(band.low, band.high), none⟩⟩⟩ center

theorem tunerReaches_of_mem_windowCenters {next : Neighbours} {radio : Radio} {bands : List Band}
    {current rate center : ℚ} (hmem : center ∈ windowCenters next radio bands current rate) :
    tunerReaches radio.capabilities center = true := by
  simp only [windowCenters, List.mem_append] at hmem
  rcases hmem with hmem | hmem
  · rw [mem_destutter_insertionSort] at hmem
    exact (List.mem_filter.mp hmem).2
  · exact (List.mem_filter.mp hmem).2

section Window

variable (next : Neighbours) (radio : Radio) (bands : List Band) (current : ℚ) {rate center : ℚ}

theorem low_mem_windowCenters {band : Band} (hband : band ∈ bands) {span : Span}
    (hspan : band.span rate = some span)
    (hreach : tunerReaches radio.capabilities span.1 = true) :
    span.1 ∈ windowCenters next radio bands current rate := by
  simp only [windowCenters, List.mem_append]
  left
  rw [mem_destutter_insertionSort]
  refine List.mem_filter.mpr ⟨List.mem_append_left _ (List.mem_cons_of_mem _ ?_), hreach⟩
  exact List.mem_flatMap.mpr
    ⟨span, List.mem_filterMap.mpr ⟨band, hband, hspan⟩, List.mem_cons_self⟩

theorem min_mem_windowCenters {range : Range} (hrange : range ∈ radio.capabilities.freqRanges)
    (hreach : tunerReaches radio.capabilities range.min = true) :
    range.min ∈ windowCenters next radio bands current rate := by
  simp only [windowCenters, List.mem_append]
  left
  rw [mem_destutter_insertionSort]
  refine List.mem_filter.mpr ⟨List.mem_append_right _ ?_, hreach⟩
  exact List.mem_flatMap.mpr ⟨range, hrange, List.mem_cons_self⟩

/-- Some listed centre hears whatever a given centre within reach does: where the last of the
heard spans starts, or else the lower end of the range. -/
theorem exists_windowCenter (hrate : 0 < rate)
    (hreach : tunerReaches radio.capabilities center = true)
    (hheard : ∃ band ∈ bands, band.hears center rate = true) :
    ∃ candidate ∈ windowCenters next radio bands current rate,
      ∀ band ∈ bands, band.hears center rate = true → band.hears candidate rate = true := by
  have hspans : ((bands.filterMap fun band ↦ band.span rate).filter
      fun span ↦ holds span center) ≠ [] := by
    obtain ⟨band, hband, hhears⟩ := hheard
    obtain ⟨span, hspan, hholds⟩ := (band.hears_iff hrate center).mp hhears
    exact List.ne_nil_of_mem (List.mem_filter.mpr
      ⟨List.mem_filterMap.mpr ⟨band, hband, hspan⟩, hholds⟩)
  obtain ⟨anchor, hanchor, hlast⟩ := exists_last_start hspans
  obtain ⟨hmem, hholds⟩ := List.mem_filter.mp hanchor
  obtain ⟨band, hband, hspan⟩ := List.mem_filterMap.mp hmem
  have hle : anchor.1 ≤ center := ((holds_iff _ _).mp hholds).1
  have hshared (candidate : ℚ) (hlow : anchor.1 ≤ candidate) (hhigh : candidate ≤ center) :
      ∀ band ∈ bands, band.hears center rate = true → band.hears candidate rate = true := by
    intro other hother hhears
    obtain ⟨span, hotherSpan, hotherHolds⟩ := (other.hears_iff hrate center).mp hhears
    have hstart : span.1 ≤ anchor.1 := hlast span (List.mem_filter.mpr
      ⟨List.mem_filterMap.mpr ⟨other, hother, hotherSpan⟩, hotherHolds⟩)
    refine (other.hears_iff hrate candidate).mpr ⟨span, hotherSpan, ?_⟩
    rw [holds_iff] at hotherHolds ⊢
    exact ⟨hstart.trans hlow, hhigh.trans hotherHolds.2⟩
  rcases (tunerReaches_iff _ _).mp hreach with hempty | ⟨range, hrange, hmin, hmax⟩
  · exact ⟨anchor.1, low_mem_windowCenters next radio bands current hband hspan
      ((tunerReaches_iff _ _).mpr (.inl hempty)), hshared _ le_rfl hle⟩
  by_cases hinside : range.min ≤ anchor.1
  · have hreached : tunerReaches radio.capabilities anchor.1 = true :=
      (tunerReaches_iff _ _).mpr (.inr ⟨range, hrange, hinside, hle.trans hmax⟩)
    exact ⟨anchor.1, low_mem_windowCenters next radio bands current hband hspan hreached,
      hshared _ le_rfl hle⟩
  · have hreached : tunerReaches radio.capabilities range.min = true :=
      (tunerReaches_iff _ _).mpr (.inr ⟨range, hrange, le_rfl, hmin.trans hmax⟩)
    exact ⟨range.min, min_mem_windowCenters next radio bands current hrange hreached,
      hshared _ (not_le.mp hinside).le hmin⟩

end Window

/-! ## Options -/

/-- The bits of the bands heard at a centre. -/
def heardBits (bands : List Band) (center rate : ℚ) : Finset ℕ :=
  ((bands.filter fun band ↦ band.hears center rate).map Band.bit).toFinset

theorem mem_heardBits {bands : List Band} {center rate : ℚ} {bit : ℕ} :
    bit ∈ heardBits bands center rate ↔
      ∃ band ∈ bands, band.hears center rate = true ∧ band.bit = bit := by
  simp only [heardBits, List.mem_toFinset, List.mem_map, List.mem_filter, and_assoc]

theorem bits_coverageAt {total : ℕ} {bands : List Band} (center rate : ℚ)
    (hbits : ∀ band ∈ bands, band.bit < total) :
    (coverageAt total bands center rate).bits = heardBits bands center rate := by
  have hfold : ∀ (bands : List Band) (covered : Coverage total),
      (∀ band ∈ bands, band.bit < total) →
      (bands.foldl (fun covered band ↦
        if band.hears center rate then covered.insert band.bit else covered) covered).bits =
        covered.bits ∪ heardBits bands center rate := by
    intro bands
    induction bands with
    | nil => intro covered _; simp [heardBits]
    | cons band bands ih =>
      intro covered hbits
      have hrest := fun covered ↦ ih covered fun other hmem ↦
        hbits other (List.mem_cons_of_mem band hmem)
      rw [List.foldl_cons, hrest]
      by_cases hhears : band.hears center rate = true
      · rw [if_pos hhears, Coverage.bits_insert covered (hbits band List.mem_cons_self)]
        ext bit
        simp only [Finset.mem_union, Finset.mem_insert, mem_heardBits, List.exists_mem_cons_iff,
          hhears, true_and]
        tauto
      · rw [if_neg hhears]
        ext bit
        simp only [Finset.mem_union, mem_heardBits, List.exists_mem_cons_iff, hhears,
          Bool.false_eq_true, false_and, false_or]
  rw [coverageAt, hfold bands _ hbits, Coverage.bits_empty, Finset.empty_union]

theorem maximalOptions_spec {total : ℕ} (options : List (Coverage total)) :
    (∀ option ∈ maximalOptions options, option ∈ options) ∧
      ∀ option ∈ options, ∃ larger ∈ maximalOptions options, option.bits ⊆ larger.bits := by
  have hfold : ∀ (options maximal : List (Coverage total)),
      let result := options.foldl (fun maximal option ↦
        if maximal.any option.subsetOf then maximal else maximal ++ [option]) maximal
      (∀ option ∈ maximal, option ∈ result) ∧
      (∀ option ∈ result, option ∈ maximal ∨ option ∈ options) ∧
      ∀ option ∈ options, ∃ larger ∈ result, option.bits ⊆ larger.bits := by
    intro options
    induction options with
    | nil => exact fun maximal ↦ ⟨fun _ h ↦ h, fun _ h ↦ .inl h, by simp⟩
    | cons option options ih =>
      intro maximal
      rw [List.foldl_cons]
      by_cases hany : maximal.any option.subsetOf = true
      · rw [if_pos hany]
        obtain ⟨hkept, hfound, hlarger⟩ := ih maximal
        refine ⟨hkept, ?_, ?_⟩
        · intro other hother
          exact (hfound other hother).imp_right (List.mem_cons_of_mem option)
        · intro other hother
          rcases List.mem_cons.mp hother with rfl | hother
          · obtain ⟨larger, hmem, hsubset⟩ := List.any_eq_true.mp hany
            exact ⟨larger, hkept larger hmem, (Coverage.subsetOf_iff _ _).mp hsubset⟩
          · exact hlarger other hother
      · rw [if_neg hany]
        obtain ⟨hkept, hfound, hlarger⟩ := ih (maximal ++ [option])
        refine ⟨fun other hother ↦ hkept other (List.mem_append_left _ hother), ?_, ?_⟩
        · intro other hother
          rcases hfound other hother with hmem | hmem
          · rcases List.mem_append.mp hmem with hmem | hmem
            · exact .inl hmem
            · rw [List.mem_singleton.mp hmem]
              exact .inr List.mem_cons_self
          · exact .inr (List.mem_cons_of_mem option hmem)
        · intro other hother
          rcases List.mem_cons.mp hother with rfl | hother
          · exact ⟨other, hkept other (List.mem_append_right _ (List.mem_singleton_self other)),
              Finset.Subset.refl _⟩
          · exact hlarger other hother
  obtain ⟨-, hfound, hlarger⟩ := hfold options []
  refine ⟨?_, hlarger⟩
  intro option hoption
  exact (hfound option hoption).resolve_left (by simp)

namespace Radio

variable (radio : Radio)

def rate : ℚ := sampleRateOf radio.settings

def current (stream : ℕ) : ℚ := centerOf radio.settings stream radio.capabilities.perStream

/-- Whether the model lets the centre of a stream move. -/
def moves (stream : ℕ) : Bool := radio.hasStream stream && radio.follows stream

/-- The centres a stream may end up at. -/
def Open (stream : ℕ) (center : ℚ) : Prop :=
  if radio.moves stream then tunerReaches radio.capabilities center = true
  else center = radio.current stream

end Radio

/-- The options of a stream are what the centres open to it hear, up to subsets. -/
structure OptionsFit {total : ℕ} (radio : Radio) (stream : ℕ) (bands : List Band)
    (options : List (Coverage total)) : Prop where
  nonempty : options ≠ []
  sound : ∀ option ∈ options, option.bits = ∅ ∨
    ∃ center, radio.Open stream center ∧ option.bits = heardBits bands center radio.rate
  complete : (radio.moves stream = true → 0 < radio.rate) → ∀ center, radio.Open stream center →
    ∃ option ∈ options, heardBits bands center radio.rate ⊆ option.bits

/-- The centres that `options` tries. -/
def triedCenters (next : Neighbours) (radio : Radio) (stream : ℕ) (bands : List Band) : List ℚ :=
  if radio.moves stream then windowCenters next radio bands (radio.current stream) radio.rate
  else [radio.current stream]

theorem open_of_mem_triedCenters {next : Neighbours} {radio : Radio} {stream : ℕ}
    {bands : List Band} {center : ℚ} (hmem : center ∈ triedCenters next radio stream bands) :
    radio.Open stream center := by
  rw [triedCenters] at hmem
  rw [Radio.Open]
  split_ifs at hmem ⊢ with hmoves
  · exact tunerReaches_of_mem_windowCenters hmem
  · exact List.mem_singleton.mp hmem

theorem exists_triedCenter (next : Neighbours) {radio : Radio} {stream : ℕ} {bands : List Band}
    (hrate : radio.moves stream = true → 0 < radio.rate) {center : ℚ}
    (hopen : radio.Open stream center) (hheard : heardBits bands center radio.rate ≠ ∅) :
    ∃ candidate ∈ triedCenters next radio stream bands,
      heardBits bands center radio.rate ⊆ heardBits bands candidate radio.rate := by
  rw [Radio.Open] at hopen
  rw [triedCenters]
  split_ifs at hopen ⊢ with hmoves
  · obtain ⟨bit, hbit⟩ := Finset.nonempty_iff_ne_empty.mpr hheard
    obtain ⟨band, hband, hhears, -⟩ := mem_heardBits.mp hbit
    obtain ⟨candidate, hmem, hall⟩ := exists_windowCenter next radio bands (radio.current stream)
      (hrate hmoves) hopen ⟨band, hband, hhears⟩
    refine ⟨candidate, hmem, ?_⟩
    intro other hother
    obtain ⟨heard, hheard, hhears, hsame⟩ := mem_heardBits.mp hother
    exact mem_heardBits.mpr ⟨heard, hheard, hall heard hheard hhears, hsame⟩
  · exact ⟨center, List.mem_singleton.mpr hopen, Finset.Subset.refl _⟩

theorem options_spec {next : Neighbours} {radio : Radio} {stream : ℕ} {bands : List Band}
    {total : ℕ} {budget after : Budget} {found : List (Coverage total)}
    (hbits : ∀ band ∈ bands, band.bit < total)
    (hoptions : options next radio stream bands total budget = some (found, after)) :
    OptionsFit radio stream bands found := by
  simp only [options, Option.bind_eq_bind, Option.bind_eq_some_iff, Option.pure_def,
    Option.some.injEq, Prod.mk.injEq] at hoptions
  obtain ⟨-, -, -, -, -, -, hfound, -⟩ := hoptions
  set sorted := (((triedCenters next radio stream bands).map fun center ↦
    coverageAt total bands center radio.rate).eraseDups).insertionSort
      fun a b ↦ b.count ≤ a.count with hsorted
  have hfound : (if (maximalOptions sorted).isEmpty = true then [Coverage.empty total]
      else maximalOptions sorted) = found := hfound
  have hmem (option : Coverage total) : option ∈ sorted ↔
      ∃ center ∈ triedCenters next radio stream bands,
        coverageAt total bands center radio.rate = option := by
    rw [hsorted, List.mem_insertionSort, List.mem_eraseDups, List.mem_map]
  obtain ⟨hkept, hlarger⟩ := maximalOptions_spec sorted
  by_cases hempty : (maximalOptions sorted).isEmpty = true
  · rw [if_pos hempty] at hfound
    rw [← hfound]
    have hnone : triedCenters next radio stream bands = [] := by
      refine List.eq_nil_iff_forall_not_mem.mpr ?_
      intro center hcenter
      obtain ⟨larger, hlargerMem, -⟩ := hlarger _ ((hmem _).mpr ⟨center, hcenter, rfl⟩)
      rw [List.isEmpty_iff.mp hempty] at hlargerMem
      exact absurd hlargerMem (by simp)
    refine ⟨by simp, fun option hoption ↦ .inl ?_, fun hrate center hopen ↦ ?_⟩
    · rw [List.mem_singleton.mp hoption, Coverage.bits_empty]
    · refine ⟨_, List.mem_singleton_self _, ?_⟩
      by_cases hheard : heardBits bands center radio.rate = ∅
      · rw [hheard]
        exact Finset.empty_subset _
      · obtain ⟨candidate, hcandidate, -⟩ := exists_triedCenter next hrate hopen hheard
        rw [hnone] at hcandidate
        exact absurd hcandidate (by simp)
  · rw [if_neg hempty] at hfound
    rw [← hfound]
    have hne : maximalOptions sorted ≠ [] := by simpa using hempty
    refine ⟨hne, fun option hoption ↦ .inr ?_, fun hrate center hopen ↦ ?_⟩
    · obtain ⟨center, hcenter, rfl⟩ := (hmem option).mp (hkept option hoption)
      exact ⟨center, open_of_mem_triedCenters hcenter, bits_coverageAt center _ hbits⟩
    · by_cases hheard : heardBits bands center radio.rate = ∅
      · obtain ⟨option, hoption⟩ := List.exists_mem_of_ne_nil _ hne
        exact ⟨option, hoption, hheard ▸ Finset.empty_subset _⟩
      · obtain ⟨candidate, hcandidate, hsubset⟩ := exists_triedCenter next hrate hopen hheard
        obtain ⟨larger, hlargerMem, hcontained⟩ :=
          hlarger _ ((hmem _).mpr ⟨candidate, hcandidate, rfl⟩)
        rw [bits_coverageAt candidate _ hbits] at hcontained
        exact ⟨larger, hlargerMem, hsubset.trans hcontained⟩

/-! ## Sites -/

/-- A radio with its number and the first bit of its fixed channels. -/
structure Station where
  index : ℕ
  fixedBit : ℕ
  radio : Radio

def stations : ℕ → ℕ → List Radio → List Station
  | _, _, [] => []
  | index, fixedBit, radio :: radios =>
      ⟨index, fixedBit, radio⟩ :: stations (index + 1) (fixedBit + radio.fixed.length) radios

/-- One stream of a radio. -/
structure Site where
  station : Station
  stream : ℕ

section Sites

variable (decoders : List Placeable) (lanes : List (List Lane))

def sites (stations : List Station) : List Site :=
  stations.flatMap fun station ↦ (streamsOf lanes station.radio).map (Site.mk station)

def Site.bands (site : Site) : List Band :=
  bandsOf decoders lanes site.station.radio site.station.fixedBit site.stream

/-- A domain that stands for a site. -/
structure Fits {total : ℕ} (site : Site) (domain : Domain total) : Prop where
  radio_eq : domain.radio = site.station.index
  stream_eq : domain.stream = site.stream
  options : OptionsFit site.station.radio site.stream (site.bands decoders lanes) domain.options

end Sites

section Bands

variable {decoders : List Placeable} {lanes : List (List Lane)} {radio : Radio}
  {fixedBit stream : ℕ} {band : Band}

/-- A band is a decoder's that can use the site, or a fixed channel's that sits on it. -/
theorem mem_bandsOf :
    band ∈ bandsOf decoders lanes radio fixedBit stream ↔
      (∃ bit decoder, decoders[bit]? = some decoder ∧
        (∃ lane ∈ lanes.getD bit [], lane.deviceSet = radio.deviceSet ∧
          streamOf radio lane = stream) ∧
        band = Band.new bit decoder.settings) ∨
      ∃ bit channel, radio.fixed[bit]? = some channel ∧
        (radio.capabilities.perStream.tuning = false ∨ channel.stream = stream) ∧
        band = Band.new (fixedBit + bit) channel.settings := by
  simp only [bandsOf, List.mem_append, List.mem_map, List.mem_filter, Prod.exists,
    List.mem_zipIdx_iff_getElem?, List.any_eq_true, decide_eq_true_iff, Bool.or_eq_true,
    Bool.not_eq_true', and_assoc]
  constructor
  · rintro (⟨decoder, bit, hget, hlane, rfl⟩ | ⟨channel, bit, hget, hstream, rfl⟩)
    · exact .inl ⟨bit, decoder, hget, hlane, rfl⟩
    · exact .inr ⟨bit, channel, hget, hstream, rfl⟩
  · rintro (⟨bit, decoder, hget, hlane, rfl⟩ | ⟨bit, channel, hget, hstream, rfl⟩)
    · exact .inl ⟨decoder, bit, hget, hlane, rfl⟩
    · exact .inr ⟨channel, bit, hget, hstream, rfl⟩

theorem bit_lt_of_mem_bandsOf {total : ℕ} (hdecoders : decoders.length ≤ total)
    (hfixed : fixedBit + radio.fixed.length ≤ total)
    (hband : band ∈ bandsOf decoders lanes radio fixedBit stream) : band.bit < total := by
  rcases mem_bandsOf.mp hband with ⟨bit, decoder, hget, -, rfl⟩ | ⟨bit, channel, hget, -, rfl⟩
  · exact (List.getElem?_eq_some_iff.mp hget).1.trans_le hdecoders
  · have hlt : bit < radio.fixed.length := (List.getElem?_eq_some_iff.mp hget).1
    exact (Nat.add_lt_add_left hlt fixedBit).trans_le hfixed

end Bands

/-! ## Domains -/

section New

variable {next : Neighbours} {decoders : List Placeable} {lanes : List (List Lane)} {total : ℕ}

theorem domainsFor_spec {index fixedBit : ℕ} {radio : Radio}
    (hbits : ∀ stream, ∀ band ∈ bandsOf decoders lanes radio fixedBit stream, band.bit < total)
    {streams : List ℕ} {budget after : Budget} {domains : List (Domain total)}
    (hdomains : domainsFor next decoders lanes total index fixedBit radio streams budget =
      some (domains, after)) :
    List.Forall₂ (Fits decoders lanes) (streams.map (Site.mk ⟨index, fixedBit, radio⟩))
      domains := by
  induction streams generalizing budget after domains with
  | nil =>
    simp only [domainsFor, Option.some.injEq, Prod.mk.injEq] at hdomains
    rw [← hdomains.1]
    exact .nil
  | cons stream streams ih =>
    simp only [domainsFor, Option.bind_eq_bind, Option.bind_eq_some_iff, Option.pure_def,
      Option.some.injEq, Prod.mk.injEq, Prod.exists] at hdomains
    obtain ⟨_, -, found, _, hoptions, rest, _, hrest, rfl, -⟩ := hdomains
    exact .cons ⟨rfl, rfl, options_spec (hbits stream) hoptions⟩ (ih hrest)

theorem domainsOf_spec (hdecoders : decoders.length ≤ total) {radios : List Radio}
    {index fixedBit : ℕ}
    (hfixed : fixedBit + (radios.map fun radio ↦ radio.fixed.length).sum ≤ total)
    {budget after : Budget} {domains : List (Domain total)}
    (hdomains : domainsOf next decoders lanes total index fixedBit radios budget =
      some (domains, after)) :
    List.Forall₂ (Fits decoders lanes) (sites lanes (stations index fixedBit radios))
      domains := by
  induction radios generalizing index fixedBit budget after domains with
  | nil =>
    simp only [domainsOf, Option.some.injEq, Prod.mk.injEq] at hdomains
    rw [← hdomains.1]
    exact .nil
  | cons radio radios ih =>
    rw [List.map_cons, List.sum_cons, ← Nat.add_assoc] at hfixed
    simp only [domainsOf, Option.bind_eq_bind, Option.bind_eq_some_iff, Option.pure_def,
      Option.some.injEq, Prod.mk.injEq, Prod.exists] at hdomains
    obtain ⟨first, _, hfirst, rest, _, hrest, rfl, -⟩ := hdomains
    have hbits : ∀ stream, ∀ band ∈ bandsOf decoders lanes radio fixedBit stream,
        band.bit < total := fun stream band hband ↦
      bit_lt_of_mem_bandsOf hdecoders ((Nat.le_add_right _ _).trans hfixed) hband
    rw [stations, sites, List.flatMap_cons]
    exact List.rel_append (domainsFor_spec hbits hfirst) (ih hfixed hrest)

end New

/-- The domains of the model are the sites of the radios in some order. -/
theorem Model.new_spec {next : Neighbours} {decoders : List Placeable} {radios : List Radio}
    {budget after : Budget} {model : Model (totalOf decoders radios)}
    (hnew : Model.new next decoders radios budget = some (model, after)) :
    model.lanes = (decoders.map fun decoder ↦ usable decoder radios) ∧
      ∃ order, order.Perm (sites model.lanes (stations 0 decoders.length radios)) ∧
        List.Forall₂ (Fits decoders model.lanes) order model.domains := by
  simp only [Model.new, Option.bind_eq_bind, Option.bind_eq_some_iff, Option.pure_def,
    Option.some.injEq, Prod.mk.injEq, Prod.exists] at hnew
  obtain ⟨domains, _, hdomains, rfl, -⟩ := hnew
  have hfits := domainsOf_spec (Nat.le_add_right _ _) (le_refl (totalOf decoders radios)) hdomains
  refine ⟨rfl, ?_⟩
  have hsorted : (domains.insertionSort fun a b ↦ domainKey radios a ≤ domainKey radios b).Perm
      domains := List.perm_insertionSort _ _
  obtain ⟨order, hfit, hperm⟩ := List.perm_comp_forall₂ hsorted hfits.flip
  exact ⟨order, hperm, hfit.flip⟩

/-! ## Models without a limit -/

section Unlimited

variable (next : Neighbours) {budget : Budget}

theorem options_unlimited (hunlimited : budget.limits.Unlimited) (radio : Radio) (stream : ℕ) (bands : List Band) (total : ℕ) :
    ∃ found after, options next radio stream bands total budget = some (found, after) ∧
      after.limits = budget.limits := by
  simp only [options, Option.bind_eq_bind, Option.bind_eq_some_iff, Option.pure_def,
    Option.some.injEq, Prod.mk.injEq]
  obtain ⟨first, hfirst, hfirstLimits⟩ := Budget.survive_unlimited hunlimited
    (if (radio.hasStream stream && radio.follows stream) = true then bands.length else 0)
  obtain ⟨second, hsecond, hsecondLimits⟩ := Budget.survive_unlimited (hfirstLimits ▸ hunlimited)
    (triedCenters next radio stream bands).length
  obtain ⟨third, hthird, hthirdLimits⟩ := Budget.survive_unlimited
    (hsecondLimits ▸ hfirstLimits ▸ hunlimited : second.limits.Unlimited)
    ((((triedCenters next radio stream bands).map fun center ↦
      coverageAt total bands center radio.rate).eraseDups).insertionSort
        fun a b ↦ b.count ≤ a.count).length
  exact ⟨_, third, ⟨first, hfirst, second, hsecond, third, hthird, rfl, rfl⟩,
    hthirdLimits.trans (hsecondLimits.trans hfirstLimits)⟩

variable (decoders : List Placeable) (lanes : List (List Lane)) (total : ℕ)

theorem domainsFor_unlimited (hunlimited : budget.limits.Unlimited) (index fixedBit : ℕ)
    (radio : Radio) (streams : List ℕ) :
    ∃ domains after, domainsFor next decoders lanes total index fixedBit radio streams budget =
      some (domains, after) ∧ after.limits = budget.limits := by
  induction streams generalizing budget with
  | nil => exact ⟨[], budget, rfl, rfl⟩
  | cons stream streams ih =>
    obtain ⟨first, hfirst, hfirstLimits⟩ := Budget.survive_unlimited hunlimited 1
    obtain ⟨found, second, hsecond, hsecondLimits⟩ := options_unlimited next
      (hfirstLimits ▸ hunlimited) radio stream (bandsOf decoders lanes radio fixedBit stream) total
    obtain ⟨rest, third, hthird, hthirdLimits⟩ :=
      ih (hsecondLimits ▸ hfirstLimits ▸ hunlimited : second.limits.Unlimited)
    refine ⟨⟨index, stream, found⟩ :: rest, third, ?_,
      hthirdLimits.trans (hsecondLimits.trans hfirstLimits)⟩
    simp only [domainsFor, hfirst, hsecond, hthird, Option.bind_eq_bind, Option.bind_some,
      Option.pure_def]

theorem domainsOf_unlimited (hunlimited : budget.limits.Unlimited) (index fixedBit : ℕ)
    (radios : List Radio) :
    ∃ domains after, domainsOf next decoders lanes total index fixedBit radios budget =
      some (domains, after) ∧ after.limits = budget.limits := by
  induction radios generalizing index fixedBit budget with
  | nil => exact ⟨[], budget, rfl, rfl⟩
  | cons radio radios ih =>
    obtain ⟨domains, first, hfirst, hfirstLimits⟩ := domainsFor_unlimited next decoders lanes total
      hunlimited index fixedBit radio (streamsOf lanes radio)
    obtain ⟨rest, second, hsecond, hsecondLimits⟩ :=
      ih (hfirstLimits ▸ hunlimited) (index + 1) (fixedBit + radio.fixed.length)
    refine ⟨domains ++ rest, second, ?_, hsecondLimits.trans hfirstLimits⟩
    simp only [domainsOf, hfirst, hsecond, Option.bind_eq_bind, Option.bind_some, Option.pure_def]

theorem Model.new_unlimited (hunlimited : budget.limits.Unlimited) (radios : List Radio) :
    ∃ model after, Model.new next decoders radios budget = some (model, after) ∧
      after.limits = budget.limits := by
  obtain ⟨domains, after, hdomains, hlimits⟩ := domainsOf_unlimited next decoders
    (decoders.map fun decoder ↦ usable decoder radios) (totalOf decoders radios) hunlimited 0
    decoders.length radios
  have hnew : Model.new next decoders radios budget = some
      (⟨decoders.map fun decoder ↦ usable decoder radios,
        domains.insertionSort fun a b ↦ domainKey radios a ≤ domainKey radios b⟩, after) := by
    simp only [Model.new, hdomains, Option.bind_eq_bind, Option.bind_some, Option.pure_def]
  exact ⟨_, after, hnew, hlimits⟩

end Unlimited

end Sdrmm.Allocator
