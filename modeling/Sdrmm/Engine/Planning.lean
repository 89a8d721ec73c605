import Mathlib.Data.Prod.Lex
import Mathlib.Tactic
import Sdrmm.Lib.Iter

/-!
# Where a radio is tuned

The centre planning of `engine/src/planning.rs` and the parts of the device settings it reads and
writes.  Frequencies, bands and rates are rational numbers, so a tuning span is given by its two
end points; the search for the nearest representable ones in the source has no counterpart here,
and neither have values that are not finite.

The main result, `bestCenterIn_covers`, is that the chosen centre is one the tuner reaches and that
no other such centre hears more channels.  `planned_hears` carries it over to the settings a plan
leads to.
-/

namespace Sdrmm.Planning

inductive Tuning
  | auto
  | manual
  deriving DecidableEq

structure Range where
  min : ℚ
  max : ℚ

structure StreamScope where
  tuning : Bool

structure Capabilities where
  freqRanges : List Range
  rxStreams : ℕ
  perStream : StreamScope

structure StreamSettings where
  stream : ℕ
  centerHz : Option ℚ
  tuning : Option Tuning

structure DeviceSettings where
  centerHz : Option ℚ
  tuning : Option Tuning
  sampleRate : Option ℚ
  streams : List StreamSettings

/-- What planning reads of a decoder's parameters: the band it occupies around its carrier and the
bandwidth of its descriptor, if it has one. -/
structure ChannelParams where
  occupiedBand : ℚ × ℚ
  bandwidthHz : Option ℚ

structure ChannelSettings where
  frequencyHz : ℚ
  params : ChannelParams

structure ChannelInfo where
  stream : ℕ
  settings : ChannelSettings

def defaultCenterHz : ℚ := 100000000

def defaultSampleRate : ℚ := 2048000

/-! ## Settings -/

def StreamSettings.mergeFrom (settings delta : StreamSettings) : StreamSettings :=
  { settings with
    centerHz := delta.centerHz <|> settings.centerHz
    tuning := delta.tuning <|> settings.tuning }

/-- Merge into the first entry of the same stream, or append. -/
def mergeStream (delta : StreamSettings) : List StreamSettings → List StreamSettings
  | [] => [delta]
  | entry :: streams =>
      if entry.stream = delta.stream then entry.mergeFrom delta :: streams
      else entry :: mergeStream delta streams

namespace DeviceSettings

def empty : DeviceSettings := ⟨none, none, none, []⟩

def mergeFrom (settings delta : DeviceSettings) : DeviceSettings where
  centerHz := delta.centerHz <|> settings.centerHz
  tuning := delta.tuning <|> settings.tuning
  sampleRate := delta.sampleRate <|> settings.sampleRate
  streams := delta.streams.foldl (fun streams entry ↦ mergeStream entry streams) settings.streams

/-- The settings as one stream sees them. -/
def forStream (settings : DeviceSettings) (index : ℕ) (scope : StreamScope) : DeviceSettings :=
  match settings.streams.find? (·.stream = index) with
  | none => { settings with streams := [] }
  | some overrides =>
      { settings with
        streams := []
        centerHz := if scope.tuning ∧ overrides.centerHz.isSome then overrides.centerHz
          else settings.centerHz
        tuning := if scope.tuning ∧ overrides.tuning.isSome then overrides.tuning
          else settings.tuning }

def tunesItself (settings : DeviceSettings) : Bool := settings.tuning.getD .auto = .auto

end DeviceSettings

def centerOf (settings : DeviceSettings) (stream : ℕ) (scope : StreamScope) : ℚ :=
  (settings.forStream stream scope).centerHz.getD defaultCenterHz

def sampleRateOf (settings : DeviceSettings) : ℚ := settings.sampleRate.getD defaultSampleRate

/-! ## Hearing -/

def reaches (offsetHz lowHz highHz deviceRate : ℚ) : Bool :=
  let nyquist := deviceRate / 2
  offsetHz + lowHz ≥ -nyquist ∧ offsetHz + highHz ≤ nyquist

def hearsAt (centerHz rate : ℚ) (settings : ChannelSettings) : Bool :=
  let (low, high) := settings.params.occupiedBand
  reaches (settings.frequencyHz - centerHz) low high rate

def hears (capabilities : Capabilities) (tuning : DeviceSettings) (stream : ℕ)
    (settings : ChannelSettings) : Bool :=
  hearsAt (centerOf tuning stream capabilities.perStream) (sampleRateOf tuning) settings

def tunerReaches (capabilities : Capabilities) (hz : ℚ) : Bool :=
  capabilities.freqRanges.isEmpty || capabilities.freqRanges.any fun r ↦ r.min ≤ hz ∧ hz ≤ r.max

def loArtifactMarginHz : ℚ := 2000

def channelHalfWidthHz (params : ChannelParams) : ℚ :=
  (params.bandwidthHz.map (· / 2)).getD 0 + loArtifactMarginHz

/-- Whether the centre, where a zero-IF front end lands its DC term, sits inside no channel. -/
def centreClearsChannels (settings : DeviceSettings) (capabilities : Capabilities)
    (channels : List ChannelInfo) : Bool :=
  channels.all fun channel ↦
    let centerHz := (settings.forStream channel.stream capabilities.perStream).centerHz.getD
      defaultCenterHz
    channelHalfWidthHz channel.settings.params < |centerHz - channel.settings.frequencyHz|

/-! ## Spans -/

def spanEpsilonHz : ℚ := 1 / 1000000

abbrev Span := ℚ × ℚ

/-- The centres at which a band fits into the sampled spectrum. -/
def tuningSpan (frequency low high rate : ℚ) : Option Span :=
  if rate ≤ 0 then none
  else
    let lowest := frequency + high - rate / 2
    let highest := frequency + low + rate / 2
    if lowest ≤ highest then some (lowest, highest) else none

def feasibleSpan (channel : ChannelInfo) (rate : ℚ) : Option Span :=
  let (low, high) := channel.settings.params.occupiedBand
  tuningSpan channel.settings.frequencyHz low high rate

def holds (span : Span) (centerHz : ℚ) : Bool := span.1 ≤ centerHz ∧ centerHz ≤ span.2

def coveredCount (spans : List Span) (centerHz : ℚ) : ℕ :=
  (spans.filter fun span ↦ holds span centerHz).length

def narrowestMarginHz (spans : List Span) (centerHz : ℚ) : WithTop ℚ :=
  ((spans.filter fun span ↦ holds span centerHz).map fun span ↦
    ((min (centerHz - span.1) (span.2 - centerHz) : ℚ) : WithTop ℚ)).foldl min ⊤

def midpoint (a b : ℚ) : ℚ := (a + b) / 2

def withCenter (settings : DeviceSettings) (capabilities : Capabilities) (stream : ℕ)
    (centerHz : ℚ) : DeviceSettings :=
  if capabilities.perStream.tuning then
    { settings with streams := mergeStream ⟨stream, some centerHz, none⟩ settings.streams }
  else { settings with centerHz := some centerHz }

def artifactIsClear (capabilities : Capabilities) (settings : DeviceSettings) (stream : ℕ)
    (centerHz : ℚ) (channels : List ChannelInfo) : Bool :=
  centreClearsChannels (withCenter settings capabilities stream centerHz) capabilities channels

/-- The intersection of some spans, `none` while it is still the whole axis. -/
def intersection (spans : List Span) : Option Span :=
  spans.foldl (fun window span ↦ match window with
    | none => some span
    | some (low, high) => some (max low span.1, min high span.2)) none

/-- The centres tried around one span: the middle of everything that shares its lower end, and
places beside the carriers. -/
def anchorCandidates (spans : List Span) (channels : List ChannelInfo) (anchor : Span) : List ℚ :=
  match intersection (spans.filter fun span ↦ holds span anchor.1) with
  | none => []
  | some (low, high) =>
      if low ≤ high then
        midpoint low high :: (channels.zip spans).flatMap fun (channel, span) ↦
          let clearOf := channelHalfWidthHz channel.settings.params + 1
          let frequencyHz := channel.settings.frequencyHz
          [frequencyHz - clearOf, frequencyHz + clearOf, midpoint span.1 frequencyHz,
            midpoint frequencyHz span.2].filter fun hz ↦ low ≤ hz ∧ hz ≤ high
      else []

def candidateCenters (spans : List Span) (channels : List ChannelInfo) (currentHz : ℚ) : List ℚ :=
  (currentHz :: spans.flatMap (anchorCandidates spans channels)).eraseDups

def nearestCarrierHz (channels : List ChannelInfo) (centerHz : ℚ) : WithTop ℚ :=
  (channels.map fun channel ↦
    ((|channel.settings.frequencyHz - centerHz| : ℚ) : WithTop ℚ)).foldl min ⊤

abbrev Rank := ℕ ×ₗ Bool ×ₗ Bool ×ₗ WithTop ℚ ×ₗ WithTop ℚ

/-- What makes one centre better than another, most important first. -/
def rank (capabilities : Capabilities) (settings : DeviceSettings) (stream : ℕ)
    (channels : List ChannelInfo) (spans : List Span) (currentHz centerHz : ℚ) : Rank :=
  let clear := artifactIsClear capabilities settings stream centerHz channels
  let stays : Bool := |centerHz - currentHz| ≤ spanEpsilonHz
  let margin := narrowestMarginHz spans centerHz
  let room := if clear then 0 else min (nearestCarrierHz channels centerHz) margin
  toLex (coveredCount spans centerHz,
    toLex (clear, toLex (clear && stays, toLex (room, margin))))

def rangeEdges (capabilities : Capabilities) : List ℚ :=
  capabilities.freqRanges.flatMap fun range ↦ [range.min, range.max]

def bestCenterIn (capabilities : Capabilities) (settings : DeviceSettings) (stream : ℕ)
    (channels : List ChannelInfo) (currentHz rate : ℚ) : Option ℚ :=
  let spans := channels.filterMap fun channel ↦ feasibleSpan channel rate
  if spans.isEmpty then none
  else
    Iter.maxByKey (rank capabilities settings stream channels spans currentHz)
      ((candidateCenters spans channels currentHz ++ rangeEdges capabilities).filter
        (tunerReaches capabilities))

def bestCenterHz (capabilities : Capabilities) (settings : DeviceSettings) (stream : ℕ)
    (channels : List ChannelInfo) (currentHz : ℚ) : Option ℚ :=
  bestCenterIn capabilities settings stream channels currentHz (sampleRateOf settings)

/-- The new centre of one stream of a radio that tunes its streams apart. -/
def planStream (capabilities : Capabilities) (settings : DeviceSettings)
    (channels : List ChannelInfo) (stream : ℕ) : Option StreamSettings :=
  let scope := capabilities.perStream
  if (settings.forStream stream scope).tunesItself then
    let currentHz := centerOf settings stream scope
    match bestCenterHz capabilities settings stream
        (channels.filter fun channel ↦ channel.stream = stream) currentHz with
    | none => none
    | some centerHz =>
        if centerHz ≠ currentHz then some ⟨stream, some centerHz, none⟩ else none
  else none

def planCenter (capabilities : Capabilities) (settings : DeviceSettings)
    (channels : List ChannelInfo) : Option DeviceSettings :=
  let scope := capabilities.perStream
  if scope.tuning = false then
    if settings.tunesItself = false then none
    else
      let currentHz := centerOf settings 0 scope
      match bestCenterHz capabilities settings 0 channels currentHz with
      | none => none
      | some centerHz =>
          if centerHz ≠ currentHz then
            some { DeviceSettings.empty with centerHz := some centerHz }
          else none
  else
    let streams := (List.range capabilities.rxStreams).filterMap
      (planStream capabilities settings channels)
    if streams.isEmpty then none else some { DeviceSettings.empty with streams := streams }

/-! ## Spans and hearing -/

/-- A radio that samples at a positive rate hears a channel exactly inside its span. -/
theorem hearsAt_iff {rate : ℚ} (hrate : 0 < rate) (channel : ChannelInfo) (centerHz : ℚ) :
    hearsAt centerHz rate channel.settings = true ↔
      ∃ span, feasibleSpan channel rate = some span ∧ holds span centerHz = true := by
  rcases hband : channel.settings.params.occupiedBand with ⟨low, high⟩
  have hhears : hearsAt centerHz rate channel.settings = true ↔
      channel.settings.frequencyHz + high - rate / 2 ≤ centerHz ∧
        centerHz ≤ channel.settings.frequencyHz + low + rate / 2 := by
    simp only [hearsAt, reaches, hband, decide_eq_true_iff]
    constructor
    · rintro ⟨hlow, hhigh⟩
      exact ⟨by linarith, by linarith⟩
    · rintro ⟨hlow, hhigh⟩
      exact ⟨by linarith, by linarith⟩
  rw [hhears]
  simp only [feasibleSpan, tuningSpan, hband, if_neg (not_le.mpr hrate)]
  constructor
  · intro hinside
    refine ⟨_, if_pos (hinside.1.trans hinside.2), ?_⟩
    simpa only [holds, decide_eq_true_iff] using hinside
  · rintro ⟨span, hspan, hholds⟩
    split_ifs at hspan with hle
    obtain rfl := Option.some.inj hspan
    simpa only [holds, decide_eq_true_iff] using hholds

def heardCount (channels : List ChannelInfo) (centerHz rate : ℚ) : ℕ :=
  (channels.filter fun channel ↦ hearsAt centerHz rate channel.settings).length

def spansOf (channels : List ChannelInfo) (rate : ℚ) : List Span :=
  channels.filterMap fun channel ↦ feasibleSpan channel rate

theorem coveredCount_spansOf {rate : ℚ} (hrate : 0 < rate) (channels : List ChannelInfo)
    (centerHz : ℚ) : coveredCount (spansOf channels rate) centerHz =
      heardCount channels centerHz rate := by
  induction channels with
  | nil => rfl
  | cons channel channels ih =>
    have hiff := hearsAt_iff hrate channel centerHz
    simp only [coveredCount, heardCount, spansOf] at ih ⊢
    cases hspan : feasibleSpan channel rate with
    | none =>
      have hdeaf : ¬hearsAt centerHz rate channel.settings = true := by
        rw [hiff, hspan]
        simp
      rw [List.filterMap_cons, hspan, List.filter_cons, if_neg hdeaf]
      exact ih
    | some span =>
      rw [List.filterMap_cons, hspan, List.filter_cons, List.filter_cons]
      rw [hspan] at hiff
      by_cases hholds : holds span centerHz = true
      · have hhears := hiff.mpr ⟨span, rfl, hholds⟩
        rw [if_pos hholds, if_pos hhears, List.length_cons, List.length_cons, ih]
      · have hdeaf : ¬hearsAt centerHz rate channel.settings = true := by
          rw [hiff]
          rintro ⟨other, hother, hheld⟩
          exact hholds (Option.some.inj hother ▸ hheld)
        rw [if_neg hholds, if_neg hdeaf, ih]

theorem holds_iff (span : Span) (centerHz : ℚ) :
    holds span centerHz = true ↔ span.1 ≤ centerHz ∧ centerHz ≤ span.2 := by
  simp only [holds, decide_eq_true_iff]

theorem coveredCount_mono {spans : List Span} {a b : ℚ}
    (hmono : ∀ span ∈ spans, holds span a = true → holds span b = true) :
    coveredCount spans a ≤ coveredCount spans b := by
  have hsublist : (spans.filter fun span ↦ holds span a).Sublist
      (spans.filter fun span ↦ holds span b) := by
    induction spans with
    | nil => exact List.Sublist.refl _
    | cons span spans ih =>
      have htail := ih fun other hmem ↦ hmono other (List.mem_cons_of_mem span hmem)
      rw [List.filter_cons, List.filter_cons]
      by_cases ha : holds span a = true
      · rw [if_pos ha, if_pos (hmono span List.mem_cons_self ha)]
        exact htail.cons_cons span
      · rw [if_neg ha]
        by_cases hb : holds span b = true
        · rw [if_pos hb]
          exact htail.cons span
        · rw [if_neg hb]
          exact htail
  exact hsublist.length_le

/-! ## Candidates -/

theorem intersection_fold (spans : List Span) (window : Span) :
    ∃ low high, spans.foldl (fun window span ↦ match window with
      | none => some span
      | some (low, high) => some (max low span.1, min high span.2)) (some window) =
        some (low, high) ∧
      ∀ x, (low ≤ x ∧ x ≤ high) ↔ (window.1 ≤ x ∧ x ≤ window.2) ∧
        ∀ span ∈ spans, holds span x = true := by
  induction spans generalizing window with
  | nil => exact ⟨window.1, window.2, rfl, fun x ↦ by simp⟩
  | cons span spans ih =>
    obtain ⟨low, high, hfold, hmem⟩ := ih (max window.1 span.1, min window.2 span.2)
    refine ⟨low, high, hfold, ?_⟩
    intro x
    rw [hmem, List.forall_mem_cons, holds_iff, max_le_iff, le_min_iff]
    tauto

/-- The window shared by a nonempty list of spans. -/
theorem intersection_spec {spans : List Span} (hne : spans ≠ []) :
    ∃ low high, intersection spans = some (low, high) ∧
      ∀ x, (low ≤ x ∧ x ≤ high) ↔ ∀ span ∈ spans, holds span x = true := by
  cases spans with
  | nil => exact absurd rfl hne
  | cons span spans =>
    obtain ⟨low, high, hfold, hmem⟩ := intersection_fold spans span
    refine ⟨low, high, hfold, ?_⟩
    intro x
    rw [hmem, List.forall_mem_cons, holds_iff]

/-- Among the spans that hold a centre there is one that starts last. -/
theorem exists_last_start {spans : List Span} (hne : spans ≠ []) :
    ∃ anchor ∈ spans, ∀ span ∈ spans, span.1 ≤ anchor.1 := by
  obtain ⟨anchor, hbest⟩ := Iter.maxByKey_isSome (fun span : Span ↦ span.1) hne
  exact ⟨anchor, Iter.maxByKey_mem _ hbest, Iter.le_maxByKey _ hbest⟩

/-- The middle of the spans around an anchor lies in every span that holds a centre above it. -/
theorem exists_middle (spans : List Span) (channels : List ChannelInfo) {centerHz : ℚ}
    (hne : (spans.filter fun span ↦ holds span centerHz) ≠ []) :
    ∃ anchor middle, holds anchor centerHz = true ∧ anchor ∈ spans ∧
      (∀ span ∈ spans, holds span centerHz = true → span.1 ≤ anchor.1) ∧
      middle ∈ anchorCandidates spans channels anchor ∧
      ∀ span ∈ spans, holds span centerHz = true → holds span middle = true := by
  obtain ⟨anchor, hanchor, hlast⟩ := exists_last_start hne
  rw [List.mem_filter] at hanchor
  have hheld := (holds_iff _ _).mp hanchor.2
  have hshare : ∀ span ∈ spans, holds span centerHz = true → holds span anchor.1 = true := by
    intro span hmem hholds
    have hle := hlast span (List.mem_filter.mpr ⟨hmem, hholds⟩)
    rw [holds_iff] at hholds ⊢
    exact ⟨hle, hheld.1.trans hholds.2⟩
  have hself : anchor ∈ spans.filter fun span ↦ holds span anchor.1 :=
    List.mem_filter.mpr ⟨hanchor.1, hshare anchor hanchor.1 hanchor.2⟩
  obtain ⟨low, high, hwindow, hinside⟩ := intersection_spec (List.ne_nil_of_mem hself)
  have hlow : low ≤ anchor.1 ∧ anchor.1 ≤ high :=
    (hinside anchor.1).mpr fun span hmem ↦ (List.mem_filter.mp hmem).2
  have hle : low ≤ high := hlow.1.trans hlow.2
  have hmiddle : low ≤ midpoint low high ∧ midpoint low high ≤ high := by
    unfold midpoint
    constructor <;> linarith
  refine ⟨anchor, midpoint low high, hanchor.2, hanchor.1,
    fun span hmem hholds ↦ hlast span (List.mem_filter.mpr ⟨hmem, hholds⟩), ?_, ?_⟩
  · simp only [anchorCandidates, hwindow, if_pos hle]
    exact List.mem_cons_self
  · intro span hmem hholds
    exact (hinside _).mp hmiddle span (List.mem_filter.mpr ⟨hmem, hshare span hmem hholds⟩)

theorem tunerReaches_iff (capabilities : Capabilities) (hz : ℚ) :
    tunerReaches capabilities hz = true ↔ capabilities.freqRanges = [] ∨
      ∃ r ∈ capabilities.freqRanges, r.min ≤ hz ∧ hz ≤ r.max := by
  simp only [tunerReaches, Bool.or_eq_true, List.isEmpty_iff, List.any_eq_true,
    decide_eq_true_iff]

/-- Some candidate within reach hears everything that a given centre within reach does. -/
theorem exists_candidate (capabilities : Capabilities) (spans : List Span)
    (channels : List ChannelInfo) (currentHz : ℚ) {centerHz : ℚ}
    (hreach : tunerReaches capabilities centerHz = true)
    (hne : (spans.filter fun span ↦ holds span centerHz) ≠ []) :
    ∃ candidate ∈ (candidateCenters spans channels currentHz ++ rangeEdges capabilities).filter
        (tunerReaches capabilities),
      ∀ span ∈ spans, holds span centerHz = true → holds span candidate = true := by
  obtain ⟨anchor, middle, hanchor, hmem, hlast, hcandidate, hall⟩ :=
    exists_middle spans channels hne
  have hmiddle : middle ∈ candidateCenters spans channels currentHz :=
    List.mem_eraseDups.mpr
      (List.mem_cons_of_mem _ (List.mem_flatMap.mpr ⟨anchor, hmem, hcandidate⟩))
  have hfound {candidate : ℚ} (hedge : candidate ∈ candidateCenters spans channels currentHz ∨
      candidate ∈ rangeEdges capabilities) (hreached : tunerReaches capabilities candidate = true)
      (hholds : ∀ span ∈ spans, holds span centerHz = true → holds span candidate = true) :
      ∃ candidate ∈ (candidateCenters spans channels currentHz ++
        rangeEdges capabilities).filter (tunerReaches capabilities),
        ∀ span ∈ spans, holds span centerHz = true → holds span candidate = true :=
    ⟨candidate, List.mem_filter.mpr ⟨List.mem_append.mpr hedge, hreached⟩, hholds⟩
  rcases (tunerReaches_iff _ _).mp hreach with hempty | ⟨r, hr, hmin, hmax⟩
  · exact hfound (.inl hmiddle) ((tunerReaches_iff _ _).mpr (.inl hempty)) hall
  have hedges : r.min ∈ rangeEdges capabilities ∧ r.max ∈ rangeEdges capabilities := by
    constructor
    · exact List.mem_flatMap.mpr ⟨r, hr, List.mem_cons_self⟩
    · exact List.mem_flatMap.mpr ⟨r, hr, List.mem_cons_of_mem _ List.mem_cons_self⟩
  -- An edge of the range serves unless the common window lies strictly inside the range.
  by_cases hlowEdge : ∀ span ∈ spans, holds span centerHz = true → span.1 ≤ r.min
  · refine hfound (.inr hedges.1)
      ((tunerReaches_iff _ _).mpr (.inr ⟨r, hr, le_rfl, hmin.trans hmax⟩)) ?_
    intro span hspan hholds
    have hle := hlowEdge span hspan hholds
    rw [holds_iff] at hholds ⊢
    exact ⟨hle, hmin.trans hholds.2⟩
  by_cases hhighEdge : ∀ span ∈ spans, holds span centerHz = true → r.max ≤ span.2
  · refine hfound (.inr hedges.2)
      ((tunerReaches_iff _ _).mpr (.inr ⟨r, hr, hmin.trans hmax, le_rfl⟩)) ?_
    intro span hspan hholds
    have hle := hhighEdge span hspan hholds
    rw [holds_iff] at hholds ⊢
    exact ⟨hholds.1.trans hmax, hle⟩
  push Not at hlowEdge hhighEdge
  obtain ⟨first, hfirst, hfirstHolds, hfirstLow⟩ := hlowEdge
  obtain ⟨last, hlastMem, hlastHolds, hlastHigh⟩ := hhighEdge
  refine hfound (.inl hmiddle) ((tunerReaches_iff _ _).mpr (.inr ⟨r, hr, ?_, ?_⟩)) hall
  · have hstart := (holds_iff _ _).mp (hall anchor hmem hanchor)
    exact (hfirstLow.le.trans (hlast first hfirst hfirstHolds)).trans hstart.1
  · exact ((holds_iff _ _).mp (hall last hlastMem hlastHolds)).2.trans hlastHigh.le

/-- Ranks compare covered counts first. -/
theorem coveredCount_le_of_rank_le {capabilities : Capabilities} {settings : DeviceSettings}
    {stream : ℕ} {channels : List ChannelInfo} {spans : List Span} {currentHz a b : ℚ}
    (hrank : rank capabilities settings stream channels spans currentHz a ≤
      rank capabilities settings stream channels spans currentHz b) :
    coveredCount spans a ≤ coveredCount spans b := by
  simp only [rank, Prod.Lex.toLex_le_toLex] at hrank
  rcases hrank with hlt | ⟨heq, -⟩
  · exact hlt.le
  · exact heq.le

/-- A radio the planner can tune: it samples at a positive rate and its ranges, if it states any,
are not all reversed. -/
structure Tunable (capabilities : Capabilities) (rate : ℚ) : Prop where
  rate_pos : 0 < rate
  ranges : capabilities.freqRanges = [] ∨ ∃ r ∈ capabilities.freqRanges, r.min ≤ r.max

section BestCenter

variable {capabilities : Capabilities} {settings : DeviceSettings} {stream : ℕ}
  {channels : List ChannelInfo} {currentHz rate : ℚ}

/-- The chosen centre is within reach, and no other centre within reach covers more. -/
theorem bestCenterIn_coveredCount {best : ℚ}
    (hbest : bestCenterIn capabilities settings stream channels currentHz rate = some best) :
    tunerReaches capabilities best = true ∧
      ∀ centerHz, tunerReaches capabilities centerHz = true →
        coveredCount (spansOf channels rate) centerHz ≤
          coveredCount (spansOf channels rate) best := by
  simp only [bestCenterIn] at hbest
  split_ifs at hbest
  change Iter.maxByKey (rank capabilities settings stream channels (spansOf channels rate)
    currentHz) ((candidateCenters (spansOf channels rate) channels currentHz ++
      rangeEdges capabilities).filter (tunerReaches capabilities)) = some best at hbest
  refine ⟨(List.mem_filter.mp (Iter.maxByKey_mem _ hbest)).2, ?_⟩
  intro centerHz hreach
  by_cases hne : ((spansOf channels rate).filter fun span ↦ holds span centerHz) = []
  · rw [coveredCount, hne]
    exact Nat.zero_le _
  · obtain ⟨candidate, hmem, hholds⟩ := exists_candidate capabilities (spansOf channels rate)
      channels currentHz hreach hne
    exact (coveredCount_mono hholds).trans
      (coveredCount_le_of_rank_le (Iter.le_maxByKey _ hbest candidate hmem))

theorem bestCenterIn_covers (hrate : 0 < rate) {best : ℚ}
    (hbest : bestCenterIn capabilities settings stream channels currentHz rate = some best) :
    tunerReaches capabilities best = true ∧
      ∀ centerHz, tunerReaches capabilities centerHz = true →
        heardCount channels centerHz rate ≤ heardCount channels best rate := by
  obtain ⟨hreach, hmost⟩ := bestCenterIn_coveredCount hbest
  refine ⟨hreach, ?_⟩
  intro centerHz hcenter
  rw [← coveredCount_spansOf hrate, ← coveredCount_spansOf hrate]
  exact hmost centerHz hcenter

variable (settings stream currentHz) in
/-- A centre is chosen as soon as a channel can be heard and some range is not reversed. -/
theorem bestCenterIn_ne_none (hspans : spansOf channels rate ≠ [])
    (hranges : capabilities.freqRanges = [] ∨ ∃ r ∈ capabilities.freqRanges, r.min ≤ r.max) :
    ∃ best, bestCenterIn capabilities settings stream channels currentHz rate = some best := by
  have hcandidates : ((candidateCenters (spansOf channels rate) channels currentHz ++
      rangeEdges capabilities).filter (tunerReaches capabilities)) ≠ [] := by
    rcases hranges with hnil | ⟨r, hr, hle⟩
    · refine List.ne_nil_of_mem (a := currentHz) (List.mem_filter.mpr ⟨?_, ?_⟩)
      · exact List.mem_append_left _ (List.mem_eraseDups.mpr List.mem_cons_self)
      · exact (tunerReaches_iff _ _).mpr (.inl hnil)
    · refine List.ne_nil_of_mem (a := r.min) (List.mem_filter.mpr ⟨?_, ?_⟩)
      · exact List.mem_append_right _ (List.mem_flatMap.mpr ⟨r, hr, List.mem_cons_self⟩)
      · exact (tunerReaches_iff _ _).mpr (.inr ⟨r, hr, le_rfl, hle⟩)
  have hfull : ¬(spansOf channels rate).isEmpty = true := by rwa [List.isEmpty_iff]
  obtain ⟨best, hbest⟩ := Iter.maxByKey_isSome
    (rank capabilities settings stream channels (spansOf channels rate) currentHz) hcandidates
  exact ⟨best, (if_neg hfull).trans hbest⟩

/-- Without a chosen centre nothing can be heard anywhere. -/
theorem bestCenterIn_none (htunable : Tunable capabilities rate)
    (hnone : bestCenterIn capabilities settings stream channels currentHz rate = none)
    (centerHz : ℚ) : heardCount channels centerHz rate = 0 := by
  rw [← coveredCount_spansOf htunable.rate_pos]
  by_cases hspans : spansOf channels rate = []
  · rw [coveredCount, hspans, List.filter_nil, List.length_nil]
  · obtain ⟨best, hbest⟩ := bestCenterIn_ne_none settings stream currentHz hspans htunable.ranges
    rw [hnone] at hbest
    exact absurd hbest (by simp)

/-- The chosen centre covers as much as any centre inside a range of the tuner. -/
theorem bestCenterIn_best (hspans : spansOf channels rate ≠ [])
    (hranges : capabilities.freqRanges ≠ [])
    (hordered : ∀ r ∈ capabilities.freqRanges, r.min ≤ r.max) :
    ∃ best, bestCenterIn capabilities settings stream channels currentHz rate = some best ∧
      tunerReaches capabilities best = true ∧
      ∀ r ∈ capabilities.freqRanges, ∀ centerHz, r.min ≤ centerHz → centerHz ≤ r.max →
        coveredCount (spansOf channels rate) centerHz ≤
          coveredCount (spansOf channels rate) best := by
  obtain ⟨r, hr⟩ := List.exists_mem_of_ne_nil _ hranges
  obtain ⟨best, hbest⟩ :=
    bestCenterIn_ne_none settings stream currentHz hspans (.inr ⟨r, hr, hordered r hr⟩)
  obtain ⟨hreach, hmost⟩ := bestCenterIn_coveredCount hbest
  refine ⟨best, hbest, hreach, ?_⟩
  intro other hother centerHz hmin hmax
  apply hmost
  exact (tunerReaches_iff _ _).mpr (.inr ⟨other, hother, hmin, hmax⟩)

/-- One broadcast channel above the range of the tuner. -/
theorem bestCenterIn_best_above :
    let channels : List ChannelInfo := [⟨0, ⟨109000000, ⟨(-100000, 100000), some 200000⟩⟩⟩]
    let capabilities : Capabilities := ⟨[⟨88000000, 108000000⟩], 1, ⟨false⟩⟩
    ∃ best, bestCenterIn capabilities .empty 0 channels 100000000 2400000 = some best ∧
      tunerReaches capabilities best = true ∧
      ∀ r ∈ capabilities.freqRanges, ∀ centerHz, r.min ≤ centerHz → centerHz ≤ r.max →
        coveredCount (spansOf channels 2400000) centerHz ≤
          coveredCount (spansOf channels 2400000) best := by
  apply bestCenterIn_best
  · norm_num [spansOf, feasibleSpan, tuningSpan, Option.some_ne_none]
  · exact List.cons_ne_nil _ _
  · norm_num

end BestCenter

/-! ## The settings a plan leads to -/

/-- The settings after carrying out a plan, if there is one. -/
def planned (capabilities : Capabilities) (settings : DeviceSettings)
    (channels : List ChannelInfo) : DeviceSettings :=
  match planCenter capabilities settings channels with
  | none => settings
  | some delta => settings.mergeFrom delta

/-- The channels that share a centre with a stream. -/
def channelsOn (scope : StreamScope) (channels : List ChannelInfo) (stream : ℕ) :
    List ChannelInfo :=
  if scope.tuning then channels.filter fun channel ↦ channel.stream = stream else channels

/-- Whether the plan may move the centre of a stream. -/
def follows (capabilities : Capabilities) (settings : DeviceSettings) (stream : ℕ) : Bool :=
  (settings.forStream stream capabilities.perStream).tunesItself &&
    (!capabilities.perStream.tuning || stream < capabilities.rxStreams)

def streamCenter (streams : List StreamSettings) (stream : ℕ) : Option ℚ :=
  (streams.find? (·.stream = stream)).bind (·.centerHz)

theorem streamCenter_mergeStream (streams : List StreamSettings) (entry stream : ℕ) (centerHz : ℚ) :
    streamCenter (mergeStream ⟨entry, some centerHz, none⟩ streams) stream =
      if entry = stream then some centerHz else streamCenter streams stream := by
  induction streams with
  | nil =>
    simp only [mergeStream, streamCenter, List.find?_cons, List.find?_nil]
    by_cases h : entry = stream <;> simp [h]
  | cons head streams ih =>
    simp only [streamCenter] at ih ⊢
    by_cases hhead : head.stream = entry
    · rw [mergeStream, if_pos hhead, List.find?_cons, List.find?_cons]
      by_cases h : entry = stream
      · simp [StreamSettings.mergeFrom, hhead, h]
      · simp [StreamSettings.mergeFrom, hhead, h]
    · rw [mergeStream, if_neg hhead, List.find?_cons, List.find?_cons]
      by_cases hstream : head.stream = stream
      · have hne : ¬entry = stream := fun h ↦ hhead (hstream.trans h.symm)
        simp [hstream, hne]
      · simpa [hstream] using ih

theorem centerOf_shared {settings : DeviceSettings} {scope : StreamScope}
    (hscope : scope.tuning = false) (stream : ℕ) :
    centerOf settings stream scope = settings.centerHz.getD defaultCenterHz := by
  unfold centerOf DeviceSettings.forStream
  split <;> simp [hscope]

theorem tunesItself_shared {settings : DeviceSettings} {scope : StreamScope}
    (hscope : scope.tuning = false) (stream : ℕ) :
    (settings.forStream stream scope).tunesItself = settings.tunesItself := by
  unfold DeviceSettings.forStream DeviceSettings.tunesItself
  split <;> simp [hscope]

theorem centerOf_apart {settings : DeviceSettings} {scope : StreamScope}
    (hscope : scope.tuning = true) (stream : ℕ) :
    centerOf settings stream scope =
      (streamCenter settings.streams stream <|> settings.centerHz).getD defaultCenterHz := by
  unfold centerOf DeviceSettings.forStream streamCenter
  cases hfind : settings.streams.find? (·.stream = stream) with
  | none => simp
  | some overrides => cases hcenter : overrides.centerHz <;> simp [hscope, hcenter]

theorem planStream_eq_some {capabilities : Capabilities} {settings : DeviceSettings}
    {channels : List ChannelInfo} {stream : ℕ} {entry : StreamSettings} :
    planStream capabilities settings channels stream = some entry ↔
      (settings.forStream stream capabilities.perStream).tunesItself = true ∧
      ∃ centerHz, bestCenterHz capabilities settings stream
        (channels.filter fun channel ↦ channel.stream = stream)
        (centerOf settings stream capabilities.perStream) = some centerHz ∧
      centerHz ≠ centerOf settings stream capabilities.perStream ∧
      entry = ⟨stream, some centerHz, none⟩ := by
  simp only [planStream]
  split_ifs with htunes
  · cases hbest : bestCenterHz capabilities settings stream
      (channels.filter fun channel ↦ channel.stream = stream)
      (centerOf settings stream capabilities.perStream) with
    | none => simp [htunes]
    | some centerHz =>
      simp only [htunes, true_and, Option.some.injEq, exists_eq_left']
      split_ifs with hmoves
      · simp [hmoves, eq_comm]
      · simp [hmoves]
  · simp [htunes]

theorem streamCenter_plans (capabilities : Capabilities) (settings : DeviceSettings)
    (channels : List ChannelInfo) (n stream : ℕ) :
    streamCenter (((List.range n).filterMap (planStream capabilities settings channels)).foldl
      (fun streams entry ↦ mergeStream entry streams) settings.streams) stream =
      if stream < n then
        ((planStream capabilities settings channels stream).bind (·.centerHz) <|>
          streamCenter settings.streams stream)
      else streamCenter settings.streams stream := by
  induction n with
  | zero => simp
  | succ n ih =>
    rw [List.range_succ, List.filterMap_append, List.foldl_append]
    cases hplan : planStream capabilities settings channels n with
    | none =>
      rw [List.filterMap_cons_none hplan, List.filterMap_nil, List.foldl_nil, ih]
      by_cases hstream : stream = n
      · subst hstream
        simp [hplan]
      · have : stream < n + 1 ↔ stream < n := by omega
        simp only [this]
    | some entry =>
      obtain ⟨-, centerHz, -, -, rfl⟩ := planStream_eq_some.mp hplan
      rw [List.filterMap_cons_some hplan, List.filterMap_nil, List.foldl_cons, List.foldl_nil,
        streamCenter_mergeStream, ih]
      by_cases hstream : stream = n
      · subst hstream
        simp [hplan]
      · have : stream < n + 1 ↔ stream < n := by omega
        simp only [this, if_neg (Ne.symm hstream)]

/-- Where a stream ends up: at the best centre if it follows and there is one, else where it was. -/
theorem centerOf_planned (capabilities : Capabilities) (settings : DeviceSettings)
    (channels : List ChannelInfo) (stream : ℕ) :
    centerOf (planned capabilities settings channels) stream capabilities.perStream =
      if follows capabilities settings stream then
        (bestCenterHz capabilities settings (if capabilities.perStream.tuning then stream else 0)
          (channelsOn capabilities.perStream channels stream)
          (centerOf settings stream capabilities.perStream)).getD
            (centerOf settings stream capabilities.perStream)
      else centerOf settings stream capabilities.perStream := by
  cases hscope : capabilities.perStream.tuning with
  | false =>
    have hcenter (s : ℕ) : centerOf settings s capabilities.perStream =
        settings.centerHz.getD defaultCenterHz := centerOf_shared hscope s
    rw [centerOf_shared hscope, hcenter]
    simp only [planned, planCenter, follows, channelsOn, hscope, tunesItself_shared hscope, hcenter]
    cases htunes : settings.tunesItself with
    | false => simp
    | true =>
      simp only [Bool.not_false, Bool.true_or, Bool.and_self, if_true, Bool.false_eq_true,
        if_false, Bool.true_eq_false]
      cases hbest : bestCenterHz capabilities settings 0 channels
        (settings.centerHz.getD defaultCenterHz) with
      | none => rfl
      | some centerHz =>
        simp only [Option.getD_some]
        by_cases hmoves : centerHz = settings.centerHz.getD defaultCenterHz
        · simp [hmoves]
        · simp [hmoves, DeviceSettings.mergeFrom, DeviceSettings.empty]
  | true =>
    have hplanned : centerOf (planned capabilities settings channels) stream
        capabilities.perStream = (streamCenter (((List.range capabilities.rxStreams).filterMap
          (planStream capabilities settings channels)).foldl
          (fun streams entry ↦ mergeStream entry streams) settings.streams) stream <|>
            settings.centerHz).getD defaultCenterHz := by
      simp only [planned, planCenter, hscope, Bool.true_eq_false, if_false]
      by_cases hnone : ((List.range capabilities.rxStreams).filterMap
          (planStream capabilities settings channels)).isEmpty = true
      · rw [if_pos hnone, List.isEmpty_iff.mp hnone, List.foldl_nil, centerOf_apart hscope]
      · rw [if_neg hnone, centerOf_apart hscope]
        rfl
    have hcurrent : centerOf settings stream capabilities.perStream =
        (streamCenter settings.streams stream <|> settings.centerHz).getD defaultCenterHz :=
      centerOf_apart hscope stream
    rw [hplanned, streamCenter_plans]
    simp only [follows, channelsOn, hscope, Bool.not_true, Bool.false_or, if_true]
    by_cases hlt : stream < capabilities.rxStreams
    · cases hplan : planStream capabilities settings channels stream with
      | some entry =>
        obtain ⟨htunes, centerHz, hbest, -, rfl⟩ := planStream_eq_some.mp hplan
        simp [hlt, htunes, hbest]
      | none =>
        rw [if_pos hlt]
        change (streamCenter settings.streams stream <|> settings.centerHz).getD _ = _
        rw [← hcurrent]
        split_ifs with htunes
        · rw [Bool.and_eq_true] at htunes
          cases hbest : bestCenterHz capabilities settings stream
            (channels.filter fun channel ↦ channel.stream = stream)
            (centerOf settings stream capabilities.perStream) with
          | none => rfl
          | some centerHz =>
            by_contra hne
            have hsome := planStream_eq_some.mpr ⟨htunes.1, centerHz, hbest, Ne.symm hne, rfl⟩
            rw [hplan] at hsome
            exact absurd hsome (by simp)
        · rfl
    · simp [hlt, hcurrent]

theorem sampleRateOf_planned (capabilities : Capabilities) (settings : DeviceSettings)
    (channels : List ChannelInfo) :
    sampleRateOf (planned capabilities settings channels) = sampleRateOf settings := by
  have hdelta : ∀ delta, planCenter capabilities settings channels = some delta →
      delta.sampleRate = none := by
    intro delta hplan
    simp only [planCenter] at hplan
    split_ifs at hplan
    · split at hplan
      · exact absurd hplan (by simp)
      · split_ifs at hplan
        · rw [← Option.some.inj hplan]
          rfl
    · rw [← Option.some.inj hplan]
      rfl
  unfold planned
  cases hplan : planCenter capabilities settings channels with
  | none => rfl
  | some delta => simp [sampleRateOf, DeviceSettings.mergeFrom, hdelta delta hplan]

/-- A stream that follows hears as much as anything within reach allows. -/
theorem planned_hears {capabilities : Capabilities} {settings : DeviceSettings}
    (htunable : Tunable capabilities (sampleRateOf settings)) (channels : List ChannelInfo)
    {stream : ℕ} (hfollows : follows capabilities settings stream = true) :
    let centerHz := centerOf (planned capabilities settings channels) stream capabilities.perStream
    (tunerReaches capabilities centerHz = true ∨
      heardCount (channelsOn capabilities.perStream channels stream) centerHz
        (sampleRateOf settings) = 0) ∧
    ∀ other, tunerReaches capabilities other = true →
      heardCount (channelsOn capabilities.perStream channels stream) other
        (sampleRateOf settings) ≤
      heardCount (channelsOn capabilities.perStream channels stream) centerHz
        (sampleRateOf settings) := by
  intro centerHz
  have hcenter : centerHz = _ := centerOf_planned capabilities settings channels stream
  rw [if_pos hfollows] at hcenter
  cases hbest : bestCenterHz capabilities settings
    (if capabilities.perStream.tuning then stream else 0)
    (channelsOn capabilities.perStream channels stream)
    (centerOf settings stream capabilities.perStream) with
  | none =>
    have hzero := bestCenterIn_none htunable hbest
    refine ⟨.inr (hzero centerHz), ?_⟩
    intro other _
    rw [hzero other]
    exact Nat.zero_le _
  | some best =>
    rw [hbest, Option.getD_some] at hcenter
    obtain ⟨hreach, hmax⟩ := bestCenterIn_covers htunable.rate_pos hbest
    rw [hcenter]
    exact ⟨.inl hreach, hmax⟩

end Sdrmm.Planning
