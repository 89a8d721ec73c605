import Sdrmm.Cps.Convert

/-!
# What a fitted codeplug can be relied on for

References of the fitted codeplug against those of its source, and the fitted codeplug against the
limits of the radio.
-/

namespace Sdrmm.Cps

/-! ## Items in their places -/

theorem applyNames_eq_zipWith {α : Type} (setName : α → String → α) {items : List α}
    {names : List String} (hlength : items.length = names.length) :
    applyNames setName items names = List.zipWith setName items names := by
  induction items generalizing names with
  | nil =>
    obtain rfl := List.length_eq_zero_iff.mp hlength.symm
    rfl
  | cons item items ih =>
    cases names with
    | nil => cases hlength
    | cons name names => exact congrArg _ (ih (Nat.succ.inj hlength))

theorem length_applyNames {α : Type} (setName : α → String → α) {items : List α}
    {names : List String} (hlength : items.length = names.length) :
    (applyNames setName items names).length = items.length := by
  rw [applyNames_eq_zipWith setName hlength, List.length_zipWith, hlength, min_self]

/-- Renamed items have the names they were given. -/
theorem map_applyNames {α : Type} {setName : α → String → α} {getName : α → String}
    (hset : ∀ item name, getName (setName item name) = name) {items : List α} {names : List String}
    (hlength : items.length = names.length) :
    (applyNames setName items names).map getName = names := by
  rw [applyNames_eq_zipWith setName hlength, List.map_zipWith]
  apply List.ext_getElem
  · rw [List.length_zipWith, hlength, min_self]
  · intro i _ _
    rw [List.getElem_zipWith, hset]

/-- The item of a place has the new name and is otherwise the old one. -/
theorem getElem?_applyNames {α : Type} (setName : α → String → α) {items : List α}
    {names : List String} (hlength : items.length = names.length) {i : ℕ} {found : α}
    (hfound : (applyNames setName items names)[i]? = some found) :
    ∃ item name, items[i]? = some item ∧ found = setName item name := by
  rw [applyNames_eq_zipWith setName hlength, List.getElem?_zipWith_eq_some] at hfound
  obtain ⟨item, name, hitem, _, rfl⟩ := hfound
  exact ⟨item, name, hitem, rfl⟩

theorem renameAll_length (names : List String) (maxLen : ℕ) :
    names.length = (renameAll names maxLen).mapped.length := renameFrom_length.symm

theorem mem_of_renameAll {names : List String} {maxLen : ℕ} {name new : String}
    (hresolve : (renameAll names maxLen).resolve name = some new) : name ∈ names := by
  by_contra hname
  rw [renameAll, renameFrom_of_notMem _ _ _ hname] at hresolve
  cases hresolve

/-! ## Following references -/

/-- `renamed` is the name that the item called `name` has got, by its place. -/
def Follows (names outNames : List String) (name renamed : String) : Prop :=
  ∃ i : ℕ, names[i]? = some name ∧ outNames[i]? = some renamed

/-- The references `refs` with some left out and the others following their items. -/
def FollowAll (names outNames refs outRefs : List String) : Prop :=
  ∃ held : List String, held.Sublist refs ∧ List.Forall₂ (Follows names outNames) held outRefs

def FollowOption (names outNames : List String) (ref outRef : Option String) : Prop :=
  ∀ renamed ∈ outRef, ∃ name ∈ ref, Follows names outNames name renamed

def FollowTarget (names outNames : List String) (target outTarget : Option ScanTarget) : Prop :=
  ∀ renamed, outTarget = some (.channel renamed) →
    ∃ name, target = some (.channel name) ∧ Follows names outNames name renamed

/-- `renamed` resolves the names of items whose new names are `outNames`. -/
def Resolves (renamed : Renamed) (names outNames : List String) : Prop :=
  ∀ name new, renamed.resolve name = some new ↔ Follows names outNames name new

theorem renameAll_resolves {names : List String} (hnodup : names.Nodup) (limit maxLen : ℕ) :
    Resolves (renameAll (names.take limit) maxLen) names
      (renameAll (names.take limit) maxLen).mapped := by
  intro name new
  rw [renameAll_resolve (hnodup.sublist (List.take_sublist ..))]
  constructor
  · rintro ⟨i, hname, hnew⟩
    refine ⟨i, ?_, hnew⟩
    rw [List.getElem?_take] at hname
    split_ifs at hname
    exact hname
  · rintro ⟨i, hname, hnew⟩
    refine ⟨i, ?_, hnew⟩
    have hlt := (List.getElem?_eq_some_iff.mp hnew).1
    rw [← renameAll_length, List.length_take] at hlt
    rw [List.getElem?_take_of_lt (by omega), hname]

section Follow

variable {renamed : Renamed} {names outNames : List String}

theorem Resolves.members (hresolves : Resolves renamed names outNames) (refs : List String)
    (limit : ℕ) : FollowAll names outNames refs (resolveMembers refs renamed limit) := by
  have hall : ∀ refs : List String, ∃ held : List String, held.Sublist refs ∧
      List.Forall₂ (Follows names outNames) held (refs.filterMap renamed.resolve) := by
    intro refs
    induction refs with
    | nil => exact ⟨[], List.Sublist.slnil, List.Forall₂.nil⟩
    | cons ref refs ih =>
      obtain ⟨held, hsublist, hfollow⟩ := ih
      cases hresolve : renamed.resolve ref with
      | none =>
        rw [List.filterMap_cons_none hresolve]
        exact ⟨held, hsublist.cons ref, hfollow⟩
      | some new =>
        rw [List.filterMap_cons_some hresolve]
        exact ⟨ref :: held, hsublist.cons_cons ref,
          List.Forall₂.cons ((hresolves ref new).mp hresolve) hfollow⟩
  obtain ⟨held, hsublist, hfollow⟩ := hall refs
  exact ⟨held.take limit, (List.take_sublist ..).trans hsublist, List.forall₂_take limit hfollow⟩

theorem Resolves.option (hresolves : Resolves renamed names outNames) (ref : Option String) :
    FollowOption names outNames ref (ref.bind renamed.resolve) := by
  intro new hnew
  obtain ⟨name, hname, hresolve⟩ := Option.bind_eq_some_iff.mp hnew
  exact ⟨name, hname, (hresolves name new).mp hresolve⟩

theorem Resolves.target (hresolves : Resolves renamed names outNames) (target : Option ScanTarget) :
    FollowTarget names outNames target (resolveTarget target renamed) := by
  intro new hnew
  match target with
  | none => cases hnew
  | some .selected => cases hnew
  | some (.channel name) =>
    obtain ⟨found, hresolve, hfound⟩ := Option.map_eq_some_iff.mp hnew
    obtain rfl := ScanTarget.channel.inj hfound
    exact ⟨name, rfl, (hresolves name found).mp hresolve⟩

theorem FollowOption.none (names outNames : List String) (ref : Option String) :
    FollowOption names outNames ref none := by
  intro new hnew
  cases hnew

end Follow

/-! ## The fitted codeplug -/

section Fitted

variable (source : Codeplug) (limits : RadioLimits)

/-- The channels of a codeplug that a radio can take, up to as many as it holds. -/
def retained : List Channel := source.channels.filter (retainChannel limits)

/-- Every reference of `out` follows the item that the same reference of `source` names. -/
structure SoundReferences (out : Codeplug) : Prop where
  groupLists : ∀ (i : ℕ) list, out.groupLists[i]? = some list →
    ∃ list₀, source.groupLists[i]? = some list₀ ∧
      FollowAll (source.contacts.map (·.name)) (out.contacts.map (·.name))
        list₀.contacts list.contacts
  zones : ∀ (i : ℕ) zone, out.zones[i]? = some zone → ∃ zone₀, source.zones[i]? = some zone₀ ∧
    FollowAll ((retained source limits).map (·.name)) (out.channels.map (·.name))
      (foldZone limits zone₀).channelsA zone.channelsA ∧
    FollowAll ((retained source limits).map (·.name)) (out.channels.map (·.name))
      (foldZone limits zone₀).channelsB zone.channelsB
  scanLists : ∀ (i : ℕ) list, out.scanLists[i]? = some list →
    ∃ list₀, source.scanLists[i]? = some list₀ ∧
      FollowAll ((retained source limits).map (·.name)) (out.channels.map (·.name))
        list₀.channels list.channels ∧
      FollowTarget ((retained source limits).map (·.name)) (out.channels.map (·.name))
        list₀.primary list.primary ∧
      FollowTarget ((retained source limits).map (·.name)) (out.channels.map (·.name))
        list₀.secondary list.secondary
  channelScanLists : ∀ (i : ℕ) channel, out.channels[i]? = some channel →
    ∃ channel₀, (retained source limits)[i]? = some channel₀ ∧
      FollowOption (source.scanLists.map (·.name)) (out.scanLists.map (·.name))
        channel₀.scanList channel.scanList
  dmrChannels : ∀ (i : ℕ) channel dmr, out.channels[i]? = some channel → channel.mode = .dmr dmr →
    ∃ channel₀ dmr₀, (retained source limits)[i]? = some channel₀ ∧ channel₀.mode = .dmr dmr₀ ∧
      FollowOption (source.contacts.map (·.name)) (out.contacts.map (·.name))
        dmr₀.contact dmr.contact ∧
      FollowOption (source.groupLists.map (·.name)) (out.groupLists.map (·.name))
        dmr₀.groupList dmr.groupList ∧
      FollowOption (source.radioIds.map (·.name)) (out.radioIds.map (·.name))
        dmr₀.radioId dmr.radioId
  settings : FollowOption (source.radioIds.map (·.name)) (out.radioIds.map (·.name))
    source.settings.defaultRadioId out.settings.defaultRadioId

/-- No two items of a kind that others refer to have the same name. -/
structure NamesUnique : Prop where
  radioIds : (source.radioIds.map (·.name)).Nodup
  contacts : (source.contacts.map (·.name)).Nodup
  groupLists : (source.groupLists.map (·.name)).Nodup
  zones : (source.zones.map (·.name)).Nodup
  scanLists : (source.scanLists.map (·.name)).Nodup
  channels : (source.channels.map (·.name)).Nodup

variable {source limits}

theorem map_keep {α : Type} (getName : α → String) (items : List α) (limit : ℕ) :
    (keep items limit).map getName = (items.map getName).take limit := List.map_take ..

theorem getElem?_of_keep {α : Type} {items : List α} {limit i : ℕ} {item : α}
    (hitem : (keep items limit)[i]? = some item) : items[i]? = some item := by
  rw [keep, List.getElem?_take] at hitem
  split_ifs at hitem
  exact hitem

/-- A kept item under its new name. -/
theorem getElem?_named {α : Type} {setName : α → String → α} (getName : α → String)
    {items : List α} {limit maxLen i : ℕ} {found : α}
    (hfound : (applyNames setName (keep items limit)
      (renameAll ((keep items limit).map getName) maxLen).mapped)[i]? = some found) :
    ∃ item name, (keep items limit)[i]? = some item ∧ found = setName item name := by
  have hlength := renameAll_length ((keep items limit).map getName) maxLen
  rw [List.length_map] at hlength
  exact getElem?_applyNames setName hlength hfound

theorem map_named {α : Type} {setName : α → String → α} {getName : α → String}
    (hset : ∀ item name, getName (setName item name) = name) (items : List α) (maxLen : ℕ) :
    (applyNames setName items (renameAll (items.map getName) maxLen).mapped).map getName =
      (renameAll (items.map getName) maxLen).mapped := by
  apply map_applyNames hset
  rw [← renameAll_length, List.length_map]

theorem fitted_radioIds_name : (fitted source limits).radioIds.map (·.name) =
    (renameAll ((source.radioIds.map (·.name)).take limits.radioIds)
      limits.radioIdNameLen).mapped := by
  rw [← map_keep]
  exact map_named (fun _ _ ↦ rfl) ..

theorem fitted_contacts_name : (fitted source limits).contacts.map (·.name) =
    (renameAll ((source.contacts.map (·.name)).take limits.contacts)
      limits.contactNameLen).mapped := by
  rw [← map_keep]
  exact map_named (fun _ _ ↦ rfl) ..

theorem fitted_groupLists_name : (fitted source limits).groupLists.map (·.name) =
    (renameAll ((source.groupLists.map (·.name)).take limits.groupLists)
      limits.groupListNameLen).mapped := by
  rw [← map_keep, fitted, List.map_map]
  exact map_named (fun _ _ ↦ rfl) ..

theorem fitZone_name (channels : Renamed) (limits : RadioLimits) (zone : Zone) :
    (fitZone channels limits zone).name = zone.name := by
  simp only [fitZone, foldZone]
  split_ifs <;> rfl

theorem fitted_zones_name : (fitted source limits).zones.map (·.name) =
    (renameAll ((source.zones.map (·.name)).take limits.zones) limits.zoneNameLen).mapped := by
  rw [← map_keep, fitted, List.map_map]
  have hname : (fun zone : Zone ↦ zone.name) ∘
      fitZone (renames (kept source limits) limits).channels limits = fun zone ↦ zone.name := by
    funext zone
    exact fitZone_name _ limits zone
  simp only [hname]
  exact map_named (fun _ _ ↦ rfl) ..

theorem fitted_channels_name : (fitted source limits).channels.map (·.name) =
    (renameAll (((retained source limits).map (·.name)).take limits.channels)
      limits.channelNameLen).mapped := by
  rw [← map_keep, fitted, List.map_map]
  exact map_named (fun _ _ ↦ rfl) ..

theorem fitted_scanLists_name (hscan : limits.features.scanLists = true) :
    (fitted source limits).scanLists.map (·.name) =
      (renameAll ((source.scanLists.map (·.name)).take limits.scanLists)
        limits.scanListNameLen).mapped := by
  simp only [fitted, hscan, Bool.not_true, Bool.false_and, Bool.false_eq_true, if_false]
  rw [← map_keep, List.map_map]
  exact map_named (fun _ _ ↦ rfl) ..

theorem fitted_scanLists_of_false (hscan : limits.features.scanLists = false) :
    (fitted source limits).scanLists = [] := by
  simp only [fitted, hscan, Bool.not_false, Bool.true_and]
  split_ifs with hempty
  · rfl
  · have hnil : (named (kept source limits) (renames (kept source limits) limits)).scanLists = [] :=
      List.isEmpty_iff.mp (by simpa using hempty)
    rw [hnil, List.map_nil]

section Resolve

variable (hunique : NamesUnique source)

include hunique

theorem resolves_radioIds : Resolves (renames (kept source limits) limits).radioIds
    (source.radioIds.map (·.name)) ((fitted source limits).radioIds.map (·.name)) := by
  rw [fitted_radioIds_name]
  simp only [renames, kept, map_keep]
  exact renameAll_resolves hunique.radioIds _ _

theorem resolves_contacts : Resolves (renames (kept source limits) limits).contacts
    (source.contacts.map (·.name)) ((fitted source limits).contacts.map (·.name)) := by
  rw [fitted_contacts_name]
  simp only [renames, kept, map_keep]
  exact renameAll_resolves hunique.contacts _ _

theorem resolves_groupLists : Resolves (renames (kept source limits) limits).groupLists
    (source.groupLists.map (·.name)) ((fitted source limits).groupLists.map (·.name)) := by
  rw [fitted_groupLists_name]
  simp only [renames, kept, map_keep]
  exact renameAll_resolves hunique.groupLists _ _

theorem resolves_channels : Resolves (renames (kept source limits) limits).channels
    ((retained source limits).map (·.name)) ((fitted source limits).channels.map (·.name)) := by
  rw [fitted_channels_name]
  simp only [renames, kept, map_keep, retained]
  apply renameAll_resolves
  exact hunique.channels.sublist (List.filter_sublist.map _)

theorem resolves_scanLists (hscan : limits.features.scanLists = true) :
    Resolves (renames (kept source limits) limits).scanLists (source.scanLists.map (·.name))
      ((fitted source limits).scanLists.map (·.name)) := by
  rw [fitted_scanLists_name hscan]
  simp only [renames, kept, map_keep]
  exact renameAll_resolves hunique.scanLists _ _

end Resolve

/-- The channel at a place of the fitted codeplug is the retained one of that place, fitted. -/
theorem fitted_channel {i : ℕ} {channel : Channel}
    (hchannel : (fitted source limits).channels[i]? = some channel) :
    ∃ channel₀ name, (keep (retained source limits) limits.channels)[i]? = some channel₀ ∧
      channel = fitChannel (renames (kept source limits) limits).contacts
        (renames (kept source limits) limits).groupLists
        (renames (kept source limits) limits).radioIds
        (renames (kept source limits) limits).scanLists limits { channel₀ with name := name } := by
  rw [fitted, List.getElem?_map, Option.map_eq_some_iff] at hchannel
  obtain ⟨found, hfound, rfl⟩ := hchannel
  obtain ⟨channel₀, name, hchannel₀, rfl⟩ := getElem?_named Channel.name hfound
  exact ⟨channel₀, name, hchannel₀, rfl⟩

theorem fitted_channels_isSome {i : ℕ} {channel : Channel}
    (hchannel : (keep (retained source limits) limits.channels)[i]? = some channel) :
    ∃ out, (fitted source limits).channels[i]? = some out := by
  have hlength : (fitted source limits).channels.length =
      (keep (retained source limits) limits.channels).length := by
    rw [fitted, List.length_map]
    apply length_applyNames
    exact (List.length_map _).symm.trans (renameAll_length _ _)
  have hlt := (List.getElem?_eq_some_iff.mp hchannel).1
  rw [← hlength] at hlt
  exact ⟨_, List.getElem?_eq_getElem hlt⟩

/-- All references but those to scan lists are sound on every radio. -/
theorem soundReferences_of (hunique : NamesUnique source)
    (hscan : ∀ (i : ℕ) channel, (fitted source limits).channels[i]? = some channel →
      ∃ channel₀, (retained source limits)[i]? = some channel₀ ∧
        FollowOption (source.scanLists.map (·.name)) ((fitted source limits).scanLists.map (·.name))
          channel₀.scanList channel.scanList) :
    SoundReferences source limits (fitted source limits) where
  groupLists := by
    intro i list hlist
    rw [fitted, List.getElem?_map, Option.map_eq_some_iff] at hlist
    obtain ⟨found, hfound, rfl⟩ := hlist
    obtain ⟨list₀, name, hlist₀, rfl⟩ := getElem?_named GroupList.name hfound
    exact ⟨list₀, getElem?_of_keep hlist₀, (resolves_contacts hunique).members _ _⟩
  zones := by
    intro i zone hzone
    rw [fitted, List.getElem?_map, Option.map_eq_some_iff] at hzone
    obtain ⟨found, hfound, rfl⟩ := hzone
    obtain ⟨zone₀, name, hzone₀, rfl⟩ := getElem?_named Zone.name hfound
    have hfold : foldZone limits { zone₀ with name := name } =
        { foldZone limits zone₀ with name := name } := by
      simp only [foldZone]
      split_ifs <;> rfl
    refine ⟨zone₀, getElem?_of_keep hzone₀, ?_⟩
    rw [fitZone, hfold]
    exact ⟨(resolves_channels hunique).members _ _, (resolves_channels hunique).members _ _⟩
  scanLists := by
    intro i list hlist
    cases hfeature : limits.features.scanLists with
    | false =>
      rw [fitted_scanLists_of_false hfeature] at hlist
      cases hlist
    | true =>
      simp only [fitted, hfeature, Bool.not_true, Bool.false_and, Bool.false_eq_true, if_false,
        List.getElem?_map, Option.map_eq_some_iff] at hlist
      obtain ⟨found, hfound, rfl⟩ := hlist
      obtain ⟨list₀, name, hlist₀, rfl⟩ := getElem?_named ScanList.name hfound
      exact ⟨list₀, getElem?_of_keep hlist₀, (resolves_channels hunique).members _ _,
        (resolves_channels hunique).target _, (resolves_channels hunique).target _⟩
  channelScanLists := hscan
  dmrChannels := by
    intro i channel dmr hchannel hmode
    obtain ⟨channel₀, name, hchannel₀, rfl⟩ := fitted_channel hchannel
    cases hmode₀ : channel₀.mode with
    | fm fm =>
      simp only [fitChannel, hmode₀, fitMode] at hmode
      cases hmode
    | dmr dmr₀ =>
      simp only [fitChannel, hmode₀, fitMode, ChannelMode.dmr.injEq] at hmode
      subst hmode
      refine ⟨channel₀, dmr₀, getElem?_of_keep hchannel₀, hmode₀, (resolves_contacts hunique).option _, ?_, ?_⟩
      · dsimp only
        split_ifs
        · exact (resolves_groupLists hunique).option _
        · exact FollowOption.none _ _ _
      · dsimp only
        split_ifs
        · exact (resolves_radioIds hunique).option _
        · exact FollowOption.none _ _ _
  settings := (resolves_radioIds hunique).option _

/-- The limits that the tests use, with or without scan lists. -/
def narrowLimits (scanLists : Bool) : RadioLimits where
  channels := 32
  contacts := 8
  groupLists := 2
  groupListMembers := 2
  zones := 2
  zoneChannels := 2
  scanLists := 1
  scanListMembers := 4
  radioIds := 1
  channelNameLen := 6
  contactNameLen := 6
  groupListNameLen := 8
  zoneNameLen := 8
  scanListNameLen := 8
  radioIdNameLen := 8
  rxRanges := [⟨144000000, 148000000⟩]
  txRanges := [⟨144000000, 148000000⟩]
  powers := [.low, .high]
  modes := [.fm]
  frequencyStepHz := 1000
  features := ⟨false, false, scanLists, true, false⟩

/-- A channel that is on a scan list. -/
def scannedCodeplug : Codeplug where
  channels := [{ name := "Local", rxHz := 145500000, txHz := 145500000, scanList := some "Tour" }]
  scanLists := [{ name := "Tour", channels := ["Local"] }]

theorem scannedCodeplug_unique : NamesUnique scannedCodeplug := by
  constructor <;> decide

/-- A codeplug that a radio has room for. -/
structure Within (out : Codeplug) (limits : RadioLimits) : Prop where
  radioIds : out.radioIds.length ≤ limits.radioIds
  contacts : out.contacts.length ≤ limits.contacts
  groupLists : out.groupLists.length ≤ limits.groupLists
  zones : out.zones.length ≤ limits.zones
  scanLists : out.scanLists.length ≤ limits.scanLists
  channels : out.channels.length ≤ limits.channels
  groupListMembers : ∀ list ∈ out.groupLists, list.contacts.length ≤ limits.groupListMembers
  zoneChannels : ∀ zone ∈ out.zones, zone.channelsA.length ≤ limits.zoneChannels ∧
    zone.channelsB.length ≤ limits.zoneChannels
  scanListMembers : ∀ list ∈ out.scanLists, list.channels.length ≤ limits.scanListMembers
  radioIdNames : ∀ name ∈ out.radioIds.map (·.name), name.length ≤ limits.radioIdNameLen
  contactNames : ∀ name ∈ out.contacts.map (·.name), name.length ≤ limits.contactNameLen
  groupListNames : ∀ name ∈ out.groupLists.map (·.name), name.length ≤ limits.groupListNameLen
  zoneNames : ∀ name ∈ out.zones.map (·.name), name.length ≤ limits.zoneNameLen
  scanListNames : ∀ name ∈ out.scanLists.map (·.name), name.length ≤ limits.scanListNameLen
  channelNames : ∀ name ∈ out.channels.map (·.name), name.length ≤ limits.channelNameLen

/-- The names of the items that are kept fit once they are cut and numbered. -/
structure NumbersFit (source : Codeplug) (limits : RadioLimits) : Prop where
  radioIds : NamesFit limits.radioIdNameLen []
    ((source.radioIds.map (·.name)).take limits.radioIds)
  contacts : NamesFit limits.contactNameLen []
    ((source.contacts.map (·.name)).take limits.contacts)
  groupLists : NamesFit limits.groupListNameLen []
    ((source.groupLists.map (·.name)).take limits.groupLists)
  zones : NamesFit limits.zoneNameLen [] ((source.zones.map (·.name)).take limits.zones)
  scanLists : limits.features.scanLists = true → NamesFit limits.scanListNameLen []
    ((source.scanLists.map (·.name)).take limits.scanLists)
  channels : NamesFit limits.channelNameLen []
    (((retained source limits).map (·.name)).take limits.channels)

theorem length_resolveMembers_le (names : List String) (renamed : Renamed) (limit : ℕ) :
    (resolveMembers names renamed limit).length ≤ limit := List.length_take_le ..

/-- As many new names as there is room for. -/
theorem length_renamed_le {out : List String} {names : List String} {limit maxLen : ℕ}
    (hout : out = (renameAll (names.take limit) maxLen).mapped) : out.length ≤ limit := by
  rw [hout, ← renameAll_length]
  exact List.length_take_le ..

theorem names_fit_iff {out : List String} {names : List String} {limit maxLen : ℕ}
    (hout : out = (renameAll (names.take limit) maxLen).mapped) :
    (∀ name ∈ out, name.length ≤ maxLen) ↔ NamesFit maxLen [] (names.take limit) := by
  rw [hout]
  exact renameAll_fits _ _

theorem fitted_groupLists_members : ∀ list ∈ (fitted source limits).groupLists,
    list.contacts.length ≤ limits.groupListMembers := by
  intro list hlist
  rw [fitted, List.mem_map] at hlist
  obtain ⟨list₀, _, rfl⟩ := hlist
  exact length_resolveMembers_le ..

theorem fitted_zones_members : ∀ zone ∈ (fitted source limits).zones,
    zone.channelsA.length ≤ limits.zoneChannels ∧ zone.channelsB.length ≤ limits.zoneChannels := by
  intro zone hzone
  rw [fitted, List.mem_map] at hzone
  obtain ⟨zone₀, _, rfl⟩ := hzone
  exact ⟨length_resolveMembers_le .., length_resolveMembers_le ..⟩

theorem fitted_scanLists_members : ∀ list ∈ (fitted source limits).scanLists,
    list.channels.length ≤ limits.scanListMembers := by
  intro list hlist
  cases hfeature : limits.features.scanLists with
  | false =>
    rw [fitted_scanLists_of_false hfeature] at hlist
    cases hlist
  | true =>
    simp only [fitted, hfeature, Bool.not_true, Bool.false_and, Bool.false_eq_true, if_false,
      List.mem_map] at hlist
    obtain ⟨list₀, _, rfl⟩ := hlist
    exact length_resolveMembers_le ..

theorem fitted_scanLists_length : (fitted source limits).scanLists.length ≤ limits.scanLists := by
  cases hfeature : limits.features.scanLists with
  | false =>
    rw [fitted_scanLists_of_false hfeature]
    exact Nat.zero_le _
  | true =>
    rw [← List.length_map]
    exact length_renamed_le (fitted_scanLists_name hfeature)

theorem fitted_scanLists_names_fit :
    (∀ name ∈ (fitted source limits).scanLists.map (·.name),
      name.length ≤ limits.scanListNameLen) ↔
      (limits.features.scanLists = true → NamesFit limits.scanListNameLen []
        ((source.scanLists.map (·.name)).take limits.scanLists)) := by
  cases hfeature : limits.features.scanLists with
  | false =>
    rw [fitted_scanLists_of_false hfeature]
    simp
  | true =>
    rw [names_fit_iff (fitted_scanLists_name hfeature)]
    simp

/-- The fitted codeplug is within all limits of the radio exactly if its names, cut and numbered, are:
the number of items and of members always is. -/
theorem within_iff (source : Codeplug) (targetModel : String) (limits : RadioLimits) :
    Within (fit source targetModel limits).1 limits ↔ NumbersFit source limits := by
  change Within (fitted source limits) limits ↔ _
  constructor
  · intro hwithin
    exact
      { radioIds := (names_fit_iff fitted_radioIds_name).mp hwithin.radioIdNames
        contacts := (names_fit_iff fitted_contacts_name).mp hwithin.contactNames
        groupLists := (names_fit_iff fitted_groupLists_name).mp hwithin.groupListNames
        zones := (names_fit_iff fitted_zones_name).mp hwithin.zoneNames
        scanLists := fitted_scanLists_names_fit.mp hwithin.scanListNames
        channels := (names_fit_iff fitted_channels_name).mp hwithin.channelNames }
  · intro hfit
    exact
      { radioIds := by
          rw [← List.length_map]
          exact length_renamed_le fitted_radioIds_name
        contacts := by
          rw [← List.length_map]
          exact length_renamed_le fitted_contacts_name
        groupLists := by
          rw [← List.length_map]
          exact length_renamed_le fitted_groupLists_name
        zones := by
          rw [← List.length_map]
          exact length_renamed_le fitted_zones_name
        scanLists := fitted_scanLists_length
        channels := by
          rw [← List.length_map]
          exact length_renamed_le fitted_channels_name
        groupListMembers := fitted_groupLists_members
        zoneChannels := fitted_zones_members
        scanListMembers := fitted_scanLists_members
        radioIdNames := (names_fit_iff fitted_radioIds_name).mpr hfit.radioIds
        contactNames := (names_fit_iff fitted_contacts_name).mpr hfit.contacts
        groupListNames := (names_fit_iff fitted_groupLists_name).mpr hfit.groupLists
        zoneNames := (names_fit_iff fitted_zones_name).mpr hfit.zones
        scanListNames := fitted_scanLists_names_fit.mpr hfit.scanLists
        channelNames := (names_fit_iff fitted_channels_name).mpr hfit.channels }

/-- Two channels whose names are cut to the same one. -/
def viennaCodeplug : Codeplug where
  channels := [{ name := "Vienna repeater", rxHz := 145600000, txHz := 145600000 },
    { name := "Vienna simplex", rxHz := 145500000, txHz := 145500000 }]

/-- The second name is numbered to ten characters where six fit. -/
theorem within_vienna : ¬Within (fit viennaCodeplug "target" (narrowLimits true)).1
    (narrowLimits true) := by
  intro hwithin
  have hnames : (fit viennaCodeplug "target" (narrowLimits true)).1.channels.map (·.name) =
      ["Vienna", "Vienna (2)"] := by
    decide
  have hlength := hwithin.channelNames "Vienna (2)" (by rw [hnames]; decide)
  exact absurd hlength (by decide)

end Fitted

end Sdrmm.Cps
