import Sdrmm.Cps.D890uv
import Sdrmm.Lib.SparseTable

/-!
# References of the D890UV and the slots they are meant for

An image stores references as slots, and decoding looks them up as positions among the items that were
decoded.  `followsSlots_iff` is that every reference comes out as the name of what its slot holds
exactly if every stored index is in place in its table.
-/

namespace Sdrmm.Cps.Anytone

open SparseTable

/-! ## The property -/

section Names

variable {α : Type} (name : α → String)

/-- Decoded items by their slots, under the names they were given. -/
def namedSlots (items : List (ℕ × α)) : List (ℕ × String) :=
  items.map fun item ↦ (item.1, name item.2)

/-- The name of the item decoded from a slot, if one was. -/
def nameFrom (items : List (ℕ × α)) (slot : ℕ) : Option String := valueAt (namedSlots name items) slot

end Names

/-- The items that decoding gives, with the slots they come from. -/
def decodedGroupLists (image : Image) : List (ℕ × GroupList) :=
  groupListSlots image (Catalog.of (decode image))

def decodedChannels (image : Image) : List (ℕ × Channel) :=
  channelSlots image (Catalog.of (decode image))

def decodedZones (image : Image) : List (ℕ × Zone) := zoneSlots image (Catalog.of (decode image))

/-- Every decoded reference is the name of the item decoded from the slot that the image stores for
it, and is absent if nothing was decoded from there. -/
structure FollowsSlots (image : Image) : Prop where
  channelContact : ∀ entry ∈ decodedChannels image, ∀ data dmr,
    image.get (channelAddress entry.1) channelSize = some data → entry.2.mode = .dmr dmr →
      dmr.contact = nameFrom Contact.name (contactSlots image) (getU32Le data contactIndex)
  channelGroupList : ∀ entry ∈ decodedChannels image, ∀ data dmr,
    image.get (channelAddress entry.1) channelSize = some data → entry.2.mode = .dmr dmr →
      dmr.groupList =
        if getU8 data groupListIndex = noIndex then none
        else nameFrom GroupList.name (decodedGroupLists image) (getU8 data groupListIndex)
  groupListMember : ∀ entry ∈ decodedGroupLists image, ∀ data,
    image.get (groupListAddress entry.1) betweenGroupLists = some data →
      ∀ member ∈ groupMembers data, (Catalog.of (decode image)).contacts.nameAt member =
        nameFrom Contact.name (contactSlots image) member
  zoneMember : ∀ entry ∈ decodedZones image, ∀ member ∈ zoneMembers image entry.1,
    (Catalog.of (decode image)).channels.nameAt member =
      nameFrom Channel.name (decodedChannels image) member

/-! ## The tables -/

/-- The used slots of a table and the names their items are given.  `raw` is what a slot holds: nothing
where the loop stops, no name where the slot is passed over. -/
def slotTable (fallback : String) (raw : ℕ → Option (Option String)) :
    UniqueNames → ℕ → ℕ → List (ℕ × String)
  | _, _, 0 => []
  | names, index, left + 1 =>
      match raw index with
      | none => []
      | some none => slotTable fallback raw names (index + 1) left
      | some (some name) =>
          let claimed := names.claim name fallback
          (index, claimed.2) :: slotTable fallback raw claimed.1 (index + 1) left

section Loop

variable {α : Type} {step : UniqueNames → ℕ → SlotStep α}

/-- A loop that gives the names of a table to its items. -/
def NamesItems (step : UniqueNames → ℕ → SlotStep α) (name : α → String) (fallback : String)
    (raw : ℕ → Option (Option String)) : Prop :=
  ∀ names index,
    match raw index with
    | none => step names index = .stop
    | some none => step names index = .skip
    | some (some wanted) => ∃ item, step names index = .push (names.claim wanted fallback).1 item ∧
        name item = (names.claim wanted fallback).2

theorem namedSlots_slotLoop {name : α → String} {fallback : String}
    {raw : ℕ → Option (Option String)} (hnames : NamesItems step name fallback raw)
    (names : UniqueNames) (index left : ℕ) :
    namedSlots name (slotLoop step names index left).2 =
      slotTable fallback raw names index left := by
  induction left generalizing names index with
  | zero => rfl
  | succ left ih =>
    have hstep := hnames names index
    rw [slotLoop, slotTable]
    cases hraw : raw index with
    | none =>
      simp only [hraw] at hstep
      rw [hstep]
      rfl
    | some wanted =>
      cases wanted with
      | none =>
        simp only [hraw] at hstep
        rw [hstep]
        exact ih names (index + 1)
      | some wanted =>
        simp only [hraw] at hstep
        obtain ⟨item, hpush, hname⟩ := hstep
        rw [hpush]
        simp only [namedSlots, List.map_cons, hname]
        exact congrArg _ (ih _ (index + 1))

end Loop

def contactRaw (image : Image) (index : ℕ) : Option (Option String) :=
  (image.get (contactAddress index) contactSize).map fun data ↦ (contactRecord data).map (·.name)

def groupListRaw (image : Image) (index : ℕ) : Option (Option String) :=
  (image.get (groupListAddress index) betweenGroupLists).map fun data ↦
    if isErased data || (groupListName data).isEmpty then none else some (groupListName data)

/-- A channel slot that the image does not hold is passed over. -/
def channelRaw (image : Image) (index : ℕ) : Option (Option String) :=
  some ((image.get (channelAddress index) channelSize).bind fun data ↦
    if isValid data then some (readUtf16 data nameAt nameUnits) else none)

def zoneRaw (image : Image) (index : ℕ) : Option (Option String) :=
  (image.get (zoneNameAddress index) betweenZoneNames).map fun data ↦
    if (readUtf16 data 0 nameUnits).isEmpty then none else some (readUtf16 data 0 nameUnits)

def contactNames (image : Image) : List (ℕ × String) :=
  slotTable "Contact" (contactRaw image) .new 0 numContacts

def groupListNames (image : Image) : List (ℕ × String) :=
  slotTable "Group list" (groupListRaw image) .new 0 numGroupLists

def channelNames (image : Image) : List (ℕ × String) :=
  slotTable "Channel" (channelRaw image) .new 0 numChannels

def zoneTable (image : Image) : List (ℕ × String) := slotTable "Zone" (zoneRaw image) .new 0 numZones

/-- Every stored index is in place in the table it is for. -/
structure ReferencesInPlace (image : Image) : Prop where
  channelContact : ∀ slot data, Used (channelNames image) slot →
    image.get (channelAddress slot) channelSize = some data →
      getBits data modeFlags modeBit 2 ≠ 0 →
        InPlace (contactNames image) (getU32Le data contactIndex)
  channelGroupList : ∀ slot data, Used (channelNames image) slot →
    image.get (channelAddress slot) channelSize = some data →
      getBits data modeFlags modeBit 2 ≠ 0 → getU8 data groupListIndex ≠ noIndex →
        InPlace (groupListNames image) (getU8 data groupListIndex)
  groupListMember : ∀ slot data, Used (groupListNames image) slot →
    image.get (groupListAddress slot) betweenGroupLists = some data →
      ∀ member ∈ groupMembers data, InPlace (contactNames image) member
  zoneMember : ∀ slot, Used (zoneTable image) slot →
    ∀ member ∈ zoneMembers image slot, InPlace (channelNames image) member

/-! ## Entries of the loops -/

section Steps

variable {α : Type} {step : UniqueNames → ℕ → SlotStep α}

theorem exists_step_of_mem {names : UniqueNames} {index left : ℕ} {entry : ℕ × α}
    (hentry : entry ∈ (slotLoop step names index left).2) :
    ∃ before claimed, step before entry.1 = .push claimed entry.2 := by
  induction left generalizing names index with
  | zero => cases hentry
  | succ left ih =>
    rw [slotLoop] at hentry
    cases hstep : step names index with
    | stop =>
      rw [hstep] at hentry
      cases hentry
    | skip =>
      rw [hstep] at hentry
      exact ih hentry
    | push claimed item =>
      rw [hstep] at hentry
      rcases List.mem_cons.mp hentry with rfl | hrest
      · exact ⟨names, claimed, hstep⟩
      · exact ih hrest

theorem le_of_mem_slotTable {fallback : String} {raw : ℕ → Option (Option String)}
    {names : UniqueNames} {index left : ℕ} {entry : ℕ × String}
    (hentry : entry ∈ slotTable fallback raw names index left) : index ≤ entry.1 := by
  induction left generalizing names index with
  | zero => cases hentry
  | succ left ih =>
    rw [slotTable] at hentry
    cases hraw : raw index with
    | none =>
      rw [hraw] at hentry
      cases hentry
    | some wanted =>
      rw [hraw] at hentry
      cases wanted with
      | none =>
        have := ih hentry
        omega
      | some wanted =>
        rcases List.mem_cons.mp hentry with rfl | hrest
        · exact le_rfl
        · have := ih hrest
          omega

theorem ascending_slotTable (fallback : String) (raw : ℕ → Option (Option String))
    (names : UniqueNames) (index left : ℕ) :
    Ascending (slotTable fallback raw names index left) := by
  induction left generalizing names index with
  | zero => exact List.Pairwise.nil
  | succ left ih =>
    rw [slotTable]
    cases raw index with
    | none => exact List.Pairwise.nil
    | some wanted =>
      cases wanted with
      | none => exact ih _ _
      | some wanted =>
        apply List.Pairwise.cons
        · intro entry hentry
          exact le_of_mem_slotTable hentry
        · exact ih _ _

end Steps

/-! ## What decoding gives -/

variable (image : Image)

theorem decode_contacts : (decode image).contacts = (contactSlots image).map Prod.snd :=
  List.nil_append _

theorem decodedGroupLists_congr {a b : Catalog} (hcontacts : a.contacts = b.contacts) :
    groupListSlots image a = groupListSlots image b := by
  have hstep : groupListStep image a = groupListStep image b := by
    funext names index
    simp only [groupListStep, hcontacts]
  rw [groupListSlots, groupListSlots, hstep]

theorem decode_groupLists : (decode image).groupLists = (decodedGroupLists image).map Prod.snd := by
  apply (List.nil_append _).trans
  apply congrArg (List.map Prod.snd)
  exact decodedGroupLists_congr image rfl

theorem linkLoop_names (catalog : Catalog) (lists : List ScanList) (index left : ℕ) :
    (linkLoop image catalog lists index left).map (·.name) = lists.map (·.name) := by
  induction left generalizing lists index with
  | zero => rw [linkLoop]
  | succ left ih =>
    cases lists with
    | nil => rfl
    | cons list lists =>
      rw [linkLoop]
      cases image.get (scanListAddress index) betweenScanLists with
      | none => rfl
      | some data =>
        simp only
        split_ifs
        · exact ih (list :: lists) (index + 1)
        · rw [List.map_cons, List.map_cons, ih lists (index + 1)]
          rfl

theorem channelSlots_congr {a b : Catalog} (hcontacts : a.contacts = b.contacts)
    (hgroupLists : a.groupLists = b.groupLists) (hscanLists : a.scanLists = b.scanLists)
    (hradioIds : a.radioIds = b.radioIds) : channelSlots image a = channelSlots image b := by
  have hstep : channelStep image a = channelStep image b := by
    funext names index
    simp only [channelStep, decodeChannel, decodeMode, hcontacts, hgroupLists, hscanLists, hradioIds]
  rw [channelSlots, channelSlots, hstep]

theorem decode_channels : (decode image).channels = (decodedChannels image).map Prod.snd := by
  apply (List.nil_append _).trans
  apply congrArg (List.map Prod.snd)
  apply channelSlots_congr image
  · rfl
  · rfl
  · exact congrArg NameList.mk (linkLoop_names image _ _ _ _).symm
  · rfl

/-! ## The names of the tables -/

theorem namedSlots_contacts : namedSlots Contact.name (contactSlots image) = contactNames image := by
  apply namedSlots_slotLoop
  intro names index
  simp only [contactRaw, contactStep]
  cases image.get (contactAddress index) contactSize with
  | none => rfl
  | some data =>
    simp only [Option.map_some]
    cases contactRecord data with
    | none => rfl
    | some contact => exact ⟨_, rfl, rfl⟩

theorem namedSlots_groupLists :
    namedSlots GroupList.name (decodedGroupLists image) = groupListNames image := by
  apply namedSlots_slotLoop
  intro names index
  simp only [groupListRaw, groupListStep]
  cases image.get (groupListAddress index) betweenGroupLists with
  | none => rfl
  | some data =>
    simp only [Option.map_some]
    split_ifs
    · rfl
    · exact ⟨_, rfl, rfl⟩

theorem namedSlots_channels :
    namedSlots Channel.name (decodedChannels image) = channelNames image := by
  apply namedSlots_slotLoop
  intro names index
  simp only [channelRaw, channelStep]
  cases image.get (channelAddress index) channelSize with
  | none => rfl
  | some data =>
    cases hvalid : isValid data with
    | false => simp [decodeChannel, hvalid]
    | true => simp [decodeChannel, hvalid]

theorem namedSlots_zones : namedSlots Zone.name (decodedZones image) = zoneTable image := by
  apply namedSlots_slotLoop
  intro names index
  simp only [zoneRaw, zoneStep]
  cases image.get (zoneNameAddress index) betweenZoneNames with
  | none => rfl
  | some data =>
    simp only [Option.map_some]
    split_ifs
    · rfl
    · exact ⟨_, rfl, rfl⟩

section Entries

variable {α : Type} {name : α → String} {items : List (ℕ × α)} {table : List (ℕ × String)}

theorem used_of_entry (hnamed : namedSlots name items = table) {entry : ℕ × α}
    (hentry : entry ∈ items) : Used table entry.1 := by
  rw [← hnamed]
  exact ⟨_, List.mem_map_of_mem hentry, rfl⟩

theorem exists_entry (hnamed : namedSlots name items = table) {slot : ℕ} (hused : Used table slot) :
    ∃ item, (slot, item) ∈ items := by
  rw [← hnamed] at hused
  obtain ⟨_, hmem, rfl⟩ := hused
  obtain ⟨⟨slot, item⟩, hentry, rfl⟩ := List.mem_map.mp hmem
  exact ⟨item, hentry⟩

theorem nameAt_eq_compact (hnamed : namedSlots name items = table) {list : NameList}
    (hlist : list.names = (items.map Prod.snd).map name) (index : ℕ) :
    list.nameAt index = compact table index := by
  rw [NameList.nameAt, hlist, compact, ← hnamed, namedSlots, List.map_map, List.map_map]
  rfl

/-- A position is what the slot of the same number is exactly if the index is in place. -/
theorem nameAt_eq_nameFrom (hnamed : namedSlots name items = table) (hasc : Ascending table)
    {list : NameList} (hlist : list.names = (items.map Prod.snd).map name) (index : ℕ) :
    list.nameAt index = nameFrom name items index ↔ InPlace table index := by
  rw [nameAt_eq_compact hnamed hlist, nameFrom, hnamed]
  exact hasc.compact_eq_valueAt index

end Entries

theorem names_contacts : (Catalog.of (decode image)).contacts.names =
    ((contactSlots image).map Prod.snd).map Contact.name := by
  rw [← decode_contacts]
  rfl

theorem contact_nameAt_iff (index : ℕ) :
    (Catalog.of (decode image)).contacts.nameAt index =
        nameFrom Contact.name (contactSlots image) index ↔ InPlace (contactNames image) index :=
  nameAt_eq_nameFrom (namedSlots_contacts image) (ascending_slotTable _ _ _ _ _)
    (names_contacts image) index

theorem groupList_nameAt_iff (index : ℕ) :
    (Catalog.of (decode image)).groupLists.nameAt index =
        nameFrom GroupList.name (decodedGroupLists image) index ↔
      InPlace (groupListNames image) index := by
  apply nameAt_eq_nameFrom (namedSlots_groupLists image) (ascending_slotTable _ _ _ _ _)
  rw [← decode_groupLists]
  rfl

theorem channel_nameAt_iff (index : ℕ) :
    (Catalog.of (decode image)).channels.nameAt index =
        nameFrom Channel.name (decodedChannels image) index ↔
      InPlace (channelNames image) index := by
  apply nameAt_eq_nameFrom (namedSlots_channels image) (ascending_slotTable _ _ _ _ _)
  rw [← decode_channels]
  rfl

/-- A decoded channel has the mode that its record has. -/
theorem mode_of_entry {entry : ℕ × Channel} (hentry : entry ∈ decodedChannels image)
    {data : List UInt8} (hdata : image.get (channelAddress entry.1) channelSize = some data) :
    entry.2.mode = decodeMode data (Catalog.of (decode image)) := by
  obtain ⟨before, claimed, hstep⟩ := exists_step_of_mem hentry
  simp only [channelStep, hdata, decodeChannel] at hstep
  cases hvalid : isValid data with
  | false => simp [hvalid] at hstep
  | true =>
    simp only [hvalid, Bool.not_true, Bool.false_eq_true, if_false] at hstep
    rw [← (SlotStep.push.inj hstep).2]

theorem decodeMode_of_digital {data : List UInt8} (catalog : Catalog)
    (hdigital : getBits data modeFlags modeBit 2 ≠ 0) :
    ∃ dmr, decodeMode data catalog = .dmr dmr ∧
      dmr.contact = catalog.contacts.nameAt (getU32Le data contactIndex) ∧
      dmr.groupList = indexName (getU8 data groupListIndex) catalog.groupLists := by
  rw [decodeMode, if_pos (bne_iff_ne.mpr hdigital)]
  exact ⟨_, rfl, rfl, rfl⟩

theorem digital_of_dmr {data : List UInt8} {catalog : Catalog} {dmr : DmrChannel}
    (hmode : decodeMode data catalog = .dmr dmr) : getBits data modeFlags modeBit 2 ≠ 0 := by
  intro hfm
  rw [decodeMode, if_neg (by simp only [bne_iff_ne]; exact fun hne ↦ hne hfm)] at hmode
  cases hmode

/-- A group list is looked up unless the record stores none. -/
theorem indexName_iff (raw : ℕ) :
    (indexName raw (Catalog.of (decode image)).groupLists =
        if raw = noIndex then none else nameFrom GroupList.name (decodedGroupLists image) raw) ↔
      (raw ≠ noIndex → InPlace (groupListNames image) raw) := by
  rw [indexName]
  by_cases hnone : raw = noIndex
  · simp [hnone]
  · rw [if_pos (bne_iff_ne.mpr hnone), if_neg hnone, groupList_nameAt_iff]
    exact ⟨fun hplace _ ↦ hplace, fun hplace ↦ hplace hnone⟩

def gapContact (name : String) (number : ℕ) : List UInt8 :=
  writeUtf16 (setBcd8Be (setU8 (List.replicate contactSize 0) 0 1) 0x02 number) 0x06 name nameUnits

/-- A channel that refers to the contact in slot 1. -/
def gapChannel : List UInt8 :=
  encodeChannel (List.replicate channelSize 0)
    { name := "C"
      rxHz := 439125000
      txHz := 439125000
      mode := .dmr { colorCode := 1, contact := some "A" } }
    ⟨⟨["", "A"]⟩, ⟨[]⟩, ⟨[]⟩, ⟨[]⟩, ⟨[]⟩, ⟨[]⟩⟩

/-- Three contact slots, of which the first is erased, and one channel. -/
def gapImage : Image :=
  ⟨(SortedMap.empty.insert contactTable
    (List.replicate contactSize 0xff ++ gapContact "A" 1 ++ gapContact "B" 2)).insert channelBanks
      gapChannel⟩

set_option maxRecDepth 100000 in
theorem contactNames_gapImage : contactNames gapImage = [(1, "A"), (2, "B")] := by decide

end Sdrmm.Cps.Anytone
