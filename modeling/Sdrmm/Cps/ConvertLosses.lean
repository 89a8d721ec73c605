import Sdrmm.Cps.ConvertSound

/-!
# What the report of a conversion leaves out

A group list, zone or scan list may come out of a conversion with fewer members than it had.
`lossesReported_iff` is when each such list has a report of its own.  Group lists and scan lists
always have one.  A zone is judged by its A list alone, into which a radio with one list a zone has
folded the B list; on a radio that keeps both, what only the B list loses goes unreported.
-/

namespace Sdrmm.Cps

/-! ## Losses and reports -/

/-- The members of both lists of a zone. -/
def Zone.size (zone : Zone) : ℕ := zone.channelsA.length + zone.channelsB.length

/-- How many lists of a name lost members, where each list of `new` came from the one in its place
of `old`. -/
def losses {α : Type} (name : α → String) (size : α → ℕ) (old new : List α) (item : String) : ℕ :=
  (old.zip new).countP fun (before, after) ↦ name after = item ∧ size after < size before

/-- How many reports there are that members of an item were dropped. -/
def lossReports (issues : List ConversionIssue) (scope : IssueScope) (field item : String) : ℕ :=
  issues.countP fun issue ↦ issue.severity = .dropped ∧ issue.scope = scope ∧
    issue.item = some item ∧ issue.field = some field

variable (source : Codeplug) (limits : RadioLimits)

/-- Every list that lost members has a report of its own: lists may share their new name, which is
all that a report knows of them. -/
structure LossesReported : Prop where
  groupLists : ∀ item, losses (·.name) (·.contacts.length) source.groupLists
      (fitted source limits).groupLists item ≤
    lossReports (fitIssues source limits) .groupList "contacts" item
  zones : ∀ item, losses (·.name) (·.size) source.zones (fitted source limits).zones item ≤
    lossReports (fitIssues source limits) .zone "channels" item
  scanLists : ∀ item, losses (·.name) (·.channels.length) source.scanLists
      (fitted source limits).scanLists item ≤
    lossReports (fitIssues source limits) .scanList "channels" item

/-- The names of the channels that a radio has room for. -/
def heldChannels : List String :=
  ((source.channels.filter (retainChannel limits)).take limits.channels).map (·.name)

/-- Whether a channel list of a zone is too long or names a channel that is not held. -/
def losesMembers (names : List String) : Prop :=
  limits.zoneChannels < names.length ∨ ∃ name ∈ names, name ∉ heldChannels source limits

instance (names : List String) : Decidable (losesMembers source limits names) :=
  inferInstanceAs (Decidable (_ ∨ _))

/-- No zone that is kept loses members from its B list only. -/
def BothListsLose : Prop :=
  limits.features.dualZoneLists = true → ∀ zone ∈ source.zones.take limits.zones,
    losesMembers source limits zone.channelsB → losesMembers source limits zone.channelsA

instance : Decidable (BothListsLose source limits) := inferInstanceAs (Decidable (_ → _))

variable {source limits}

/-! ## Counting lists by their names -/

section Counting

variable {α : Type} {name : α → String} {size : α → ℕ} {setName : α → String → α}

variable (name size setName) in
/-- Lists that were only renamed in between. -/
theorem losses_applyNames (hsize : ∀ item new, size (setName item new) = size item)
    (fitItem : α → α) (items : List α) (limit : ℕ) (names : List String) (item : String) :
    losses name size items ((applyNames setName (keep items limit) names).map fitItem) item =
      (applyNames setName (keep items limit) names).countP fun entry ↦
        name (fitItem entry) = item ∧ size (fitItem entry) < size entry := by
  induction items generalizing limit names with
  | nil => cases limit <;> cases names <;> rfl
  | cons first items ih =>
    cases limit with
    | zero => cases names <;> simp [keep, applyNames, losses]
    | succ limit =>
      cases names with
      | nil =>
        have hrest := ih limit []
        have hkeep (items : List α) : applyNames setName items [] = items := by cases items <;> rfl
        simp only [hkeep, losses, keep] at hrest ⊢
        rw [List.take_succ_cons, List.map_cons, List.zip_cons_cons, List.countP_cons, hrest,
          List.countP_cons]
      | cons new names =>
        have hrest := ih limit names
        simp only [losses, keep] at hrest ⊢
        rw [List.take_succ_cons, applyNames, List.map_cons, List.zip_cons_cons, List.countP_cons,
          hrest, List.countP_cons]
        simp only [hsize]

variable (setName) in
theorem forall_applyNames {P : α → Prop} (hset : ∀ item new, P (setName item new) ↔ P item)
    (items : List α) (names : List String) :
    (∀ entry ∈ applyNames setName items names, P entry) ↔ ∀ entry ∈ items, P entry := by
  induction items generalizing names with
  | nil => cases names <;> rfl
  | cons first items ih =>
    cases names with
    | nil => rfl
    | cons new names =>
      rw [applyNames, List.forall_mem_cons, List.forall_mem_cons, ih, hset]

/-- Counting by names compares entry by entry. -/
theorem countP_le_iff {lost reported : α → Prop} [DecidablePred lost] [DecidablePred reported]
    (himp : ∀ entry, reported entry → lost entry) (entries : List α) :
    (∀ item, (entries.countP fun entry ↦ name entry = item ∧ lost entry) ≤
      entries.countP fun entry ↦ name entry = item ∧ reported entry) ↔
      ∀ entry ∈ entries, lost entry → reported entry := by
  constructor
  · intro hcount entry hmem hlost
    by_contra hsilent
    have hsplit := List.countP_eq_countP_filter_add entries
      (fun other ↦ decide (name other = name entry ∧ lost other)) (fun other ↦ decide (reported other))
    have hreported : (entries.filter fun other ↦ decide (reported other)).countP
        (fun other ↦ decide (name other = name entry ∧ lost other)) =
        entries.countP fun other ↦ name other = name entry ∧ reported other := by
      rw [List.countP_filter]
      apply List.countP_congr
      intro other _
      simp only [Bool.and_eq_true, decide_eq_true_iff]
      exact ⟨fun h ↦ ⟨h.1.1, h.2⟩, fun h ↦ ⟨⟨h.1, himp other h.2⟩, h.2⟩⟩
    have hpos : 0 < (entries.filter fun other ↦ !decide (reported other)).countP
        fun other ↦ decide (name other = name entry ∧ lost other) := by
      rw [List.countP_pos_iff]
      exact ⟨entry, List.mem_filter.mpr ⟨hmem, by simpa using hsilent⟩, by simpa using hlost⟩
    have := hcount (name entry)
    omega
  · intro hall item
    apply List.countP_mono_left
    intro entry hmem
    simp only [decide_eq_true_iff]
    exact fun h ↦ ⟨h.1, hall entry hmem h.2⟩

end Counting

/-! ## Which issues report a loss -/

section Reports

variable {issues more : List ConversionIssue} {scope : IssueScope} {field item : String}

theorem lossReports_append : lossReports (issues ++ more) scope field item =
    lossReports issues scope field item + lossReports more scope field item := List.countP_append

/-- Issues of another severity, scope or field report no loss. -/
theorem lossReports_eq_zero (hother : ∀ issue ∈ issues,
    issue.severity ≠ .dropped ∨ issue.scope ≠ scope ∨ issue.field ≠ some field) :
    lossReports issues scope field item = 0 := by
  rw [lossReports, List.countP_eq_zero]
  intro issue hmem
  have := hother issue hmem
  simp only [decide_eq_true_iff]
  tauto

theorem lossReports_flatMap {α : Type} {f : α → List ConversionIssue} {name : α → String}
    {reported : α → Prop} [DecidablePred reported]
    (hone : ∀ entry, lossReports (f entry) scope field item =
      if name entry = item ∧ reported entry then 1 else 0) (entries : List α) :
    lossReports (entries.flatMap f) scope field item =
      entries.countP fun entry ↦ name entry = item ∧ reported entry := by
  induction entries with
  | nil => rfl
  | cons first entries ih =>
    rw [List.flatMap_cons, lossReports_append, ih, hone, List.countP_cons, add_comm]
    simp only [decide_eq_true_iff]

theorem lossReports_memberIssues {name : String} {before after : ℕ}
    {message : ℕ → ℕ → IssueMessage} :
    lossReports (memberIssues scope name field before after message) scope field item =
      if name = item ∧ after ≠ before then 1 else 0 := by
  rw [memberIssues]
  by_cases hsame : after = before
  · simp [hsame, lossReports]
  · simp [hsame, lossReports, List.countP_cons]

theorem keepIssues_field {α : Type} {items : List α} {limit : ℕ} {label : String} :
    ∀ issue ∈ keepIssues items limit scope label, issue.field = none := by
  rw [keepIssues]
  split_ifs
  · exact fun issue hissue ↦ absurd hissue List.not_mem_nil
  · simp

theorem renameIssues_severity {names mapped : List String} :
    ∀ issue ∈ renameIssues names mapped scope, issue.severity = .adjusted := by
  intro issue hissue
  rw [renameIssues, List.mem_filterMap] at hissue
  obtain ⟨⟨name, claimed⟩, _, hsome⟩ := hissue
  simp only at hsome
  split_ifs at hsome
  rw [← Option.some.inj hsome]

theorem retainChannelIssue_scope {channels : List Channel} :
    ∀ issue ∈ channels.filterMap (retainChannelIssue limits), issue.scope = .channel := by
  intro issue hissue
  obtain ⟨channel, _, hsome⟩ := List.mem_filterMap.mp hissue
  simp only [retainChannelIssue] at hsome
  split_ifs at hsome <;> rw [← Option.some.inj hsome]

theorem memberIssues_scope {name : String} {before after : ℕ} {message : ℕ → ℕ → IssueMessage} :
    ∀ issue ∈ memberIssues scope name field before after message, issue.scope = scope := by
  rw [memberIssues]
  split_ifs
  · exact fun issue hissue ↦ absurd hissue List.not_mem_nil
  · simp

theorem zoneIssues_scope {channels : Renamed} {zone : Zone} :
    ∀ issue ∈ zoneIssues channels limits zone, issue.scope = .zone := by
  intro issue hissue
  rw [zoneIssues, List.mem_append] at hissue
  rcases hissue with hfold | hmembers
  · split_ifs at hfold
    · rw [List.mem_singleton.mp hfold]
    · cases hfold
  · exact memberIssues_scope issue hmembers

theorem channelIssues_scope {channel : Channel} :
    ∀ issue ∈ channelIssues limits channel, issue.scope = .channel := by
  have htone (field : String) (tone : Option Tone) :
      ∀ issue ∈ toneIssues limits channel field tone, issue.scope = .channel := by
    intro issue hissue
    unfold toneIssues at hissue
    split at hissue
    · split_ifs at hissue
      · cases hissue
      · rw [List.mem_singleton.mp hissue]
    · cases hissue
  intro issue hissue
  rw [channelIssues, List.mem_append] at hissue
  rcases hissue with hpower | hmode
  · split_ifs at hpower
    · cases hpower
    · rw [List.mem_singleton.mp hpower]
  · split at hmode
    · rcases List.mem_append.mp hmode with hrx | htx
      · exact htone _ _ issue hrx
      · exact htone _ _ issue htx
    · cases hmode

end Reports

/-! ## The reports of a conversion -/

section Conversion

variable (source limits)

/-- The new names that a conversion gives. -/
def freshNames : Renames := renames (kept source limits) limits

/-- The kept items under their new names, their members still under the old ones. -/
def renamed : Codeplug := named (kept source limits) (freshNames source limits)

def groupListIssues : List ConversionIssue :=
  (renamed source limits).groupLists.flatMap fun list ↦ memberIssues .groupList list.name "contacts"
    list.contacts.length
    (fitGroupList (freshNames source limits).contacts limits list).contacts.length .contactsDropped

def allZoneIssues : List ConversionIssue :=
  (renamed source limits).zones.flatMap (zoneIssues (freshNames source limits).channels limits)

def scanListIssues : List ConversionIssue :=
  if !limits.features.scanLists && !(renamed source limits).scanLists.isEmpty then
    [{ severity := .dropped, scope := .scanList, item := some "scan lists",
       message := .noScanLists }]
  else (renamed source limits).scanLists.flatMap fun list ↦
    memberIssues .scanList list.name "channels" list.channels.length
      (fitScanList (freshNames source limits).channels limits list).channels.length .channelsDropped

variable {source limits} {scope : IssueScope} {field item : String}

theorem lossReports_fitIssues (hscope : scope ≠ .channel) :
    lossReports (fitIssues source limits) scope field item =
      lossReports (groupListIssues source limits) scope field item +
        lossReports (allZoneIssues source limits) scope field item +
        lossReports (scanListIssues source limits) scope field item := by
  have hkeep {α : Type} (items : List α) (limit : ℕ) (kept : IssueScope) (label : String) :
      lossReports (keepIssues items limit kept label) scope field item = 0 :=
    lossReports_eq_zero fun issue hissue ↦ by simp [keepIssues_field issue hissue]
  have hrename (names mapped : List String) (named : IssueScope) :
      lossReports (renameIssues names mapped named) scope field item = 0 :=
    lossReports_eq_zero fun issue hissue ↦ by simp [renameIssues_severity issue hissue]
  have hretain :
      lossReports (source.channels.filterMap (retainChannelIssue limits)) scope field item = 0 :=
    lossReports_eq_zero fun issue hissue ↦ by
      simp [retainChannelIssue_scope issue hissue, Ne.symm hscope]
  have hchannels : lossReports ((renamed source limits).channels.flatMap (channelIssues limits))
      scope field item = 0 :=
    lossReports_eq_zero fun issue hissue ↦ by
      obtain ⟨channel, _, hmem⟩ := List.mem_flatMap.mp hissue
      simp [channelIssues_scope issue hmem, Ne.symm hscope]
  have hissues : fitIssues source limits = _ ++ groupListIssues source limits ++
    allZoneIssues source limits ++ scanListIssues source limits ++
    (renamed source limits).channels.flatMap (channelIssues limits) := rfl
  rw [hissues]
  simp only [lossReports_append, hkeep, hrename, hretain, hchannels, zero_add, add_zero]

theorem lossReports_groupListIssues (hscope : scope ≠ .groupList) :
    lossReports (groupListIssues source limits) scope field item = 0 := by
  apply lossReports_eq_zero
  intro issue hissue
  obtain ⟨list, _, hmem⟩ := List.mem_flatMap.mp hissue
  simp [memberIssues_scope issue hmem, Ne.symm hscope]

theorem lossReports_allZoneIssues (hscope : scope ≠ .zone) :
    lossReports (allZoneIssues source limits) scope field item = 0 := by
  apply lossReports_eq_zero
  intro issue hissue
  obtain ⟨zone, _, hmem⟩ := List.mem_flatMap.mp hissue
  simp [zoneIssues_scope issue hmem, Ne.symm hscope]

theorem lossReports_scanListIssues (hscope : scope ≠ .scanList) :
    lossReports (scanListIssues source limits) scope field item = 0 := by
  apply lossReports_eq_zero
  intro issue hissue
  rw [scanListIssues] at hissue
  split_ifs at hissue
  · rw [List.mem_singleton.mp hissue]
    simp [Ne.symm hscope]
  · obtain ⟨list, _, hmem⟩ := List.mem_flatMap.mp hissue
    simp [memberIssues_scope issue hmem, Ne.symm hscope]

/-! ### Group lists and scan lists -/

theorem length_resolveMembers_le_length (names : List String) (resolved : Renamed) (limit : ℕ) :
    (resolveMembers names resolved limit).length ≤ names.length :=
  (List.length_take_le' _ _).trans (List.length_filterMap_le _ _)

theorem groupLists_reported (item : String) :
    losses (·.name) (·.contacts.length) source.groupLists (fitted source limits).groupLists item ≤
      lossReports (fitIssues source limits) .groupList "contacts" item := by
  rw [lossReports_fitIssues (by decide), lossReports_allZoneIssues (by decide),
    lossReports_scanListIssues (by decide), add_zero, add_zero]
  have hreports : lossReports (groupListIssues source limits) .groupList "contacts" item =
      (renamed source limits).groupLists.countP fun list ↦ list.name = item ∧
        (fitGroupList (freshNames source limits).contacts limits list).contacts.length ≠
          list.contacts.length :=
    lossReports_flatMap (fun list ↦ lossReports_memberIssues) _
  have hlosses := losses_applyNames GroupList.name (fun list ↦ list.contacts.length)
    (fun list name ↦ { list with name := name }) (fun _ _ ↦ rfl)
    (fitGroupList (freshNames source limits).contacts limits) source.groupLists limits.groupLists
    (freshNames source limits).groupLists.mapped item
  rw [hreports]
  refine hlosses.le.trans (List.countP_mono_left ?_)
  intro list _
  simp only [decide_eq_true_iff]
  exact fun h ↦ ⟨h.1, h.2.ne⟩

theorem scanLists_reported (item : String) :
    losses (·.name) (·.channels.length) source.scanLists (fitted source limits).scanLists item ≤
      lossReports (fitIssues source limits) .scanList "channels" item := by
  cases hfeature : !limits.features.scanLists && !(renamed source limits).scanLists.isEmpty with
  | true =>
    have hcleared : (fitted source limits).scanLists = [] := if_pos hfeature
    rw [hcleared, losses, List.zip_nil_right]
    exact Nat.zero_le _
  | false =>
    have hissues : scanListIssues source limits = _ := if_neg (ne_true_of_eq_false hfeature)
    have hkept : (fitted source limits).scanLists = (renamed source limits).scanLists.map
        (fitScanList (freshNames source limits).channels limits) :=
      if_neg (ne_true_of_eq_false hfeature)
    rw [lossReports_fitIssues (by decide), lossReports_groupListIssues (by decide),
      lossReports_allZoneIssues (by decide), zero_add, zero_add, hissues, hkept]
    have hreports : lossReports ((renamed source limits).scanLists.flatMap fun list ↦
        memberIssues .scanList list.name "channels" list.channels.length
          (fitScanList (freshNames source limits).channels limits list).channels.length
          .channelsDropped) .scanList "channels" item =
        (renamed source limits).scanLists.countP fun list ↦ list.name = item ∧
          (fitScanList (freshNames source limits).channels limits list).channels.length ≠
            list.channels.length :=
      lossReports_flatMap (fun list ↦ lossReports_memberIssues) _
    have hlosses := losses_applyNames ScanList.name (fun list ↦ list.channels.length)
      (fun list name ↦ { list with name := name }) (fun _ _ ↦ rfl)
      (fitScanList (freshNames source limits).channels limits) source.scanLists limits.scanLists
      (freshNames source limits).scanLists.mapped item
    rw [hreports]
    refine hlosses.le.trans (List.countP_mono_left ?_)
    intro list _
    simp only [decide_eq_true_iff]
    exact fun h ↦ ⟨h.1, h.2.ne⟩

/-! ### Zones -/

/-- Whether resolving the names of a channel list leaves some out. -/
def Shortened (channels : Renamed) (limits : RadioLimits) (names : List String) : Prop :=
  (resolveMembers names channels limits.zoneChannels).length < names.length

instance (channels : Renamed) (limits : RadioLimits) (names : List String) :
    Decidable (Shortened channels limits names) := inferInstanceAs (Decidable (_ < _))

theorem shortened_iff {names : List String} :
    Shortened (freshNames source limits).channels limits names ↔
      losesMembers source limits names := by
  have hheld (name : String) : ((freshNames source limits).channels.resolve name).isSome = true ↔
      name ∈ heldChannels source limits := by
    constructor
    · intro hsome
      obtain ⟨new, hnew⟩ := Option.isSome_iff_exists.mp hsome
      exact mem_of_renameAll hnew
    · intro hmem
      obtain ⟨new, hnew⟩ := renameAll_isSome hmem limits.channelNameLen
      exact Option.isSome_iff_exists.mpr ⟨new, hnew⟩
  have hresolved : (names.filterMap (freshNames source limits).channels.resolve).length =
      names.length ↔ ∀ name ∈ names, name ∈ heldChannels source limits := by
    rw [List.length_filterMap_eq_countP, List.countP_eq_length]
    exact forall₂_congr fun name _ ↦ hheld name
  have hle := List.length_filterMap_le (freshNames source limits).channels.resolve names
  rw [Shortened, resolveMembers, List.length_take, losesMembers]
  by_cases hall : ∀ name ∈ names, name ∈ heldChannels source limits
  · have hnone : ¬∃ name ∈ names, name ∉ heldChannels source limits := by
      push Not
      exact hall
    simp only [hnone, or_false]
    have := hresolved.mpr hall
    omega
  · have hlost : ∃ name ∈ names, name ∉ heldChannels source limits := by
      push Not at hall
      exact hall
    simp only [hlost, or_true, iff_true]
    have := mt hresolved.mp hall
    omega

variable {zone : Zone} {channels : Renamed}

theorem foldZone_size : (foldZone limits zone).size = zone.size := by
  unfold foldZone Zone.size
  split_ifs
  · simp
  · rfl

/-- A zone gets smaller when one of its lists does, after they were folded on a radio with one. -/
theorem fitZone_size_lt : (fitZone channels limits zone).size < zone.size ↔
    Shortened channels limits (foldZone limits zone).channelsA ∨
      Shortened channels limits (foldZone limits zone).channelsB := by
  have hfold : (foldZone limits zone).size = zone.size := foldZone_size
  have hA := length_resolveMembers_le_length (foldZone limits zone).channelsA channels
    limits.zoneChannels
  have hB := length_resolveMembers_le_length (foldZone limits zone).channelsB channels
    limits.zoneChannels
  unfold Zone.size at hfold
  simp only [Zone.size, fitZone, Shortened]
  omega

theorem not_shortened_nil : ¬Shortened channels limits [] := by
  simp [Shortened, resolveMembers]

theorem lossReports_zoneIssues {item : String} :
    lossReports (zoneIssues channels limits zone) .zone "channels" item =
      if zone.name = item ∧ Shortened channels limits (foldZone limits zone).channelsA then 1
      else 0 := by
  have hadjusted : lossReports (if !limits.features.dualZoneLists && !zone.channelsB.isEmpty then
      [{ severity := .adjusted, scope := .zone, item := some zone.name, field := some "channels_b",
         message := .oneListPerZone }] else []) .zone "channels" item = 0 := by
    split_ifs
    · simp [lossReports]
    · rfl
  have hle := length_resolveMembers_le_length (foldZone limits zone).channelsA channels
    limits.zoneChannels
  have hshort : (fitZone channels limits zone).channelsA.length ≠
      (foldZone limits zone).channelsA.length ↔
        Shortened channels limits (foldZone limits zone).channelsA := by
    simp only [fitZone, Shortened]
    omega
  rw [zoneIssues, lossReports_append, hadjusted, zero_add, lossReports_memberIssues]
  simp only [hshort]

/-- What the report of a zone does not see is its B list on a radio that keeps both lists. -/
theorem shortened_unseen_iff :
    (Shortened channels limits (foldZone limits zone).channelsA ∨
        Shortened channels limits (foldZone limits zone).channelsB →
      Shortened channels limits (foldZone limits zone).channelsA) ↔
      (limits.features.dualZoneLists = true → Shortened channels limits zone.channelsB →
        Shortened channels limits zone.channelsA) := by
  cases hdual : limits.features.dualZoneLists with
  | true =>
    have hfold : foldZone limits zone = zone := by simp [foldZone, hdual]
    simp only [hfold, true_imp_iff]
    tauto
  | false =>
    have hempty : (foldZone limits zone).channelsB = [] := by
      unfold foldZone
      split_ifs with hfolded
      · rfl
      · simpa [hdual] using hfolded
    simp only [hempty, not_shortened_nil, or_false, Bool.false_eq_true, false_imp_iff, iff_true]
    exact id

theorem zones_reported_iff :
    (∀ item, losses (·.name) (·.size) source.zones (fitted source limits).zones item ≤
      lossReports (fitIssues source limits) .zone "channels" item) ↔
      BothListsLose source limits := by
  let channels := (freshNames source limits).channels
  have hlosses (item : String) := losses_applyNames Zone.name Zone.size
    (fun zone name ↦ { zone with name := name }) (fun _ _ ↦ rfl)
    (fitZone channels limits) source.zones limits.zones (freshNames source limits).zones.mapped item
  have hissues (item : String) : lossReports (fitIssues source limits) .zone "channels" item =
      (renamed source limits).zones.countP fun zone ↦ zone.name = item ∧
        Shortened channels limits (foldZone limits zone).channelsA := by
    rw [lossReports_fitIssues (by decide), lossReports_groupListIssues (by decide),
      lossReports_scanListIssues (by decide), zero_add, add_zero]
    exact lossReports_flatMap (fun zone ↦ lossReports_zoneIssues) _
  have hlost (item : String) : losses (·.name) (·.size) source.zones (fitted source limits).zones
      item = (renamed source limits).zones.countP fun zone ↦ zone.name = item ∧
        (Shortened channels limits (foldZone limits zone).channelsA ∨
          Shortened channels limits (foldZone limits zone).channelsB) := by
    refine (hlosses item).trans (List.countP_congr ?_)
    intro zone _
    simp only [decide_eq_true_iff, fitZone_name, fitZone_size_lt]
  simp only [hissues, hlost]
  rw [countP_le_iff (fun zone hreported ↦ Or.inl hreported)]
  simp only [shortened_unseen_iff]
  have hsource := forall_applyNames (fun (zone : Zone) name ↦ { zone with name := name })
    (P := fun zone ↦ limits.features.dualZoneLists = true →
      Shortened channels limits zone.channelsB → Shortened channels limits zone.channelsA)
    (fun _ _ ↦ Iff.rfl) (source.zones.take limits.zones) (freshNames source limits).zones.mapped
  refine hsource.trans ?_
  simp only [channels, shortened_iff, BothListsLose]
  constructor
  · intro hzones hdual zone hmem
    exact hzones zone hmem hdual
  · intro hzones zone hmem hdual
    exact hzones hdual zone hmem

end Conversion

/-! ## Reported losses -/

/-- Every list that loses members is reported exactly if no zone loses some from its B list alone on
a radio that keeps both lists. -/
theorem lossesReported_iff (source : Codeplug) (limits : RadioLimits) :
    LossesReported source limits ↔ BothListsLose source limits := by
  constructor
  · intro hreported
    exact zones_reported_iff.mp hreported.zones
  · intro hboth
    exact ⟨groupLists_reported, zones_reported_iff.mpr hboth, scanLists_reported⟩

/-- The limits above for a radio that keeps both lists of a zone. -/
def dualLimits : RadioLimits :=
  { narrowLimits true with features := ⟨true, false, true, true, false⟩ }

/-- A zone that lists a channel on its B side that the radio cannot receive. -/
def twoBandCodeplug : Codeplug where
  channels := [{ name := "Two", rxHz := 145500000, txHz := 145500000 },
    { name := "Seventy", rxHz := 435000000, txHz := 435000000 }]
  zones := [{ name := "Home", channelsA := ["Two"], channelsB := ["Seventy"] }]

/-- The B list of the zone comes out empty and nothing says so. -/
theorem losses_unreported :
    ¬∀ (source : Codeplug) (limits : RadioLimits), NamesUnique source →
      ∀ zones ∈ source.zones.zip (fitted source limits).zones, zones.2.size < zones.1.size →
        ∃ issue ∈ fitIssues source limits, issue.severity = .dropped ∧ issue.scope = .zone ∧
          issue.item = some zones.2.name := by
  intro hall
  have hunique : NamesUnique twoBandCodeplug := by constructor <;> decide
  have hzones := hall twoBandCodeplug dualLimits hunique
    ({ name := "Home", channelsA := ["Two"], channelsB := ["Seventy"] },
      { name := "Home", channelsA := ["Two"], channelsB := [] })
  revert hzones
  decide

end Sdrmm.Cps
