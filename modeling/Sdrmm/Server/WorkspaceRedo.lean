import Sdrmm.Server.WorkspaceHistory

/-!
# The redo branch of a workspace

A change that is recorded drops what redo would have reached, but one that goes on with the entry at the
cursor returns before it does.  `redoBranch_iff` says that these are the only ones: over any run of calls
redo is at its end after every change exactly when no change is coalesced into an entry that has others
after it.  The table stays within its depth and the cursor on an entry in any case.
-/

open Sdrmm.Lib.Outcome

namespace Sdrmm.WorkspaceHistory

variable {Snapshot State : Type} {forms : Forms Snapshot State} {workspace : Workspace}

/-- No edit was recorded yet. -/
structure Fresh (workspace : Workspace) : Prop where
  historyAt : workspace.historyAt = 0
  history : workspace.history.entries = []

/-- A call changes the stored arrangement, or the settings the entry at the cursor stands for, where an
entry that has none of its own stands for those before the change. -/
def Changes (forms : Forms Snapshot State) (workspace : Workspace) : Call Snapshot State → Prop
  | .update request now recordedAt =>
    ((Call.update request now recordedAt).perform forms workspace).2.snapshot ≠ workspace.snapshot
  | .settings change now =>
    stateAt (recordStart workspace now (some (recordedSettings forms change)))
      (recordBase workspace now).2 ≠ some (forms.stateJson change.after)
  | .step _ _ => False

/-- A settings change goes on with the entry at the cursor while there are entries after it. -/
def CoalescesBeforeRedo (forms : Forms Snapshot State) (workspace : Workspace) :
    Call Snapshot State → Prop
  | .settings change now =>
    Changes forms workspace (.settings change now) ∧
      recordCoalesces workspace.history workspace.historyAt now workspace.snapshot
        (recordedSettings forms change) = true ∧
      workspace.historyAt ≠ 0 ∧ ∃ entry ∈ workspace.history.entries, workspace.historyAt < entry.1
  | _ => False

/-- What a run keeps to: no redo entry survives a newer change, the history is within its depth, and the
cursor is on an entry of it. -/
structure RedoBranch (forms : Forms Snapshot State) (start : Workspace)
    (calls : List (Call Snapshot State)) : Prop where
  redo : ∀ front call back, calls = front ++ call :: back → Changes forms (run forms start front) call →
    ∀ now, redoWorkspace forms (run forms start (front ++ [call])) now =
      Except.error (.workspaceHistoryEnd .redo)
  depth : ∀ front, front <+: calls →
    (run forms start front).history.entries.length ≤ workspaceHistoryDepth
  pointed : ∀ front, front <+: calls → (run forms start front).historyAt ≠ 0 →
    ((run forms start front).history.get? (run forms start front).historyAt).isSome

/-! ## The table -/

theorem Step.query_mem (step : Step) {history : SortedMap ℕ HistoryEntry} {historyAt : ℕ}
    {target : ℕ × HistoryEntry} (hquery : step.query history historyAt = some target) :
    target ∈ history.entries := by
  cases step with
  | undo => exact (SortedMap.findRev?_eq_some.mp hquery).1
  | redo => exact (SortedMap.find?_eq_some.mp hquery).1

theorem query_redo_eq_none {history : SortedMap ℕ HistoryEntry} {historyAt : ℕ} :
    Step.redo.query history historyAt = none ↔ ∀ entry ∈ history.entries, entry.1 ≤ historyAt := by
  rw [Step.query, SortedMap.find?_eq_none]
  simp only [decide_eq_false_iff_not, not_lt]

/-- The only error of a computation is a text that cannot be read. -/
def ReadsJson {α : Type} (result : Except StoreError α) : Prop :=
  ∀ err, result = Except.error err → err = .json

theorem ReadsJson.bind {α β : Type} {result : Except StoreError α} {next : α → Except StoreError β}
    (hresult : ReadsJson result) (hnext : ∀ value, ReadsJson (next value)) : ReadsJson (result >>= next) := by
  cases result with
  | error err =>
    intro other herr
    have hsame : err = other := Except.error.inj herr
    exact hresult other (congrArg Except.error hsame)
  | ok value => exact hnext value

theorem readsJson_ok {α : Type} (value : α) : ReadsJson (Except.ok value : Except StoreError α) := by
  intro err herr
  cases herr

theorem readsJson_parseSnapshot (json : String) : ReadsJson (parseSnapshot forms json) := by
  unfold parseSnapshot
  cases forms.parseSnapshot json with
  | none => exact fun err herr ↦ (Except.error.inj herr).symm
  | some snapshot => exact readsJson_ok snapshot

theorem readsJson_parseState (json : String) : ReadsJson (parseState forms json) := by
  unfold parseState
  cases forms.parseState json with
  | none => exact fun err herr ↦ (Except.error.inj herr).symm
  | some state => exact readsJson_ok state

theorem readsJson_stepSettings (history : SortedMap ℕ HistoryEntry) (historyAt seq : ℕ) :
    ReadsJson (stepSettings forms history historyAt seq) := by
  unfold stepSettings
  dsimp only
  cases stateAt history seq with
  | none => exact readsJson_ok none
  | some reaching =>
    dsimp only
    split_ifs
    · exact readsJson_ok none
    · rw [map_eq_pure_bind]
      exact (readsJson_parseState reaching).bind fun state ↦ readsJson_ok (some state)

theorem readsJson_readWorkspace : ReadsJson (readWorkspace forms workspace) := by
  apply (readsJson_parseSnapshot workspace.snapshot).bind
  intro snapshot
  have hstate : ReadsJson (readWorkspaceState forms workspace) := by
    unfold readWorkspaceState
    cases workspace.state with
    | none => exact readsJson_ok forms.newState
    | some json => exact readsJson_parseState json
  exact hstate.bind fun state ↦ readsJson_ok _

/-- A step is at its end exactly when its query finds nothing. -/
theorem stepHistory_eq_end {step : Step} {now : ℤ} :
    stepHistory forms workspace step now = Except.error (.workspaceHistoryEnd step) ↔
      step.query workspace.history workspace.historyAt = none := by
  unfold stepHistory
  cases hquery : step.query workspace.history workspace.historyAt with
  | none => exact iff_of_true rfl rfl
  | some target =>
    refine iff_of_false (fun hend ↦ ?_) (Option.some_ne_none target)
    have hreads : ReadsJson (stepHistory forms workspace step now) := by
      unfold stepHistory
      rw [hquery]
      apply (readsJson_parseSnapshot target.2.snapshot).bind
      intro snapshot
      apply (readsJson_stepSettings _ _ target.1).bind
      intro settings
      exact readsJson_readWorkspace.bind fun detail ↦ readsJson_ok _
    unfold stepHistory at hreads
    rw [hquery] at hreads
    exact StoreError.noConfusion (hreads _ hend)

theorem redoWorkspace_eq_end {now : ℤ} :
    redoWorkspace forms workspace now = Except.error (.workspaceHistoryEnd .redo) ↔
      ∀ entry ∈ workspace.history.entries, entry.1 ≤ workspace.historyAt :=
  stepHistory_eq_end.trans query_redo_eq_none

theorem mem_recordEntry {history : SortedMap ℕ HistoryEntry} {seq : ℕ} {entry : HistoryEntry}
    {other : ℕ × HistoryEntry} :
    other ∈ (recordEntry history (seq + 1) entry).entries ↔
      (other = (seq + 1, entry) ∨ other ∈ history.entries ∧ other.1 ≤ seq) ∧
        seq + 1 < other.1 + workspaceHistoryDepth := by
  unfold recordEntry
  simp only [SortedMap.mem_retain, SortedMap.mem_insert, Nat.add_sub_cancel, Bool.not_eq_true',
    decide_eq_false_iff_not, not_le, not_lt]
  have hne : other.1 ≤ seq → other.1 ≠ seq + 1 := by omega
  tauto

theorem recordEntry_get? (history : SortedMap ℕ HistoryEntry) (seq : ℕ) (entry : HistoryEntry) :
    (recordEntry history (seq + 1) entry).get? (seq + 1) = some entry := by
  rw [SortedMap.get?_eq_some, mem_recordEntry]
  refine ⟨Or.inl rfl, ?_⟩
  unfold workspaceHistoryDepth
  omega

theorem recordEntry_le {history : SortedMap ℕ HistoryEntry} {seq : ℕ} {entry : HistoryEntry}
    {other : ℕ × HistoryEntry} (hother : other ∈ (recordEntry history (seq + 1) entry).entries) :
    other.1 ≤ seq + 1 := by
  rcases (mem_recordEntry.mp hother).1 with rfl | ⟨-, hle⟩
  · exact le_rfl
  · exact hle.trans (Nat.le_succ seq)

/-- The pruned table has no more entries than the numbers left to it. -/
theorem recordEntry_length (history : SortedMap ℕ HistoryEntry) (seq : ℕ) (entry : HistoryEntry) :
    (recordEntry history (seq + 1) entry).entries.length ≤ workspaceHistoryDepth := by
  have hsubset : (recordEntry history (seq + 1) entry).keys ⊆
      List.range' (seq + 2 - workspaceHistoryDepth) workspaceHistoryDepth := by
    intro key hkey
    obtain ⟨other, hother, rfl⟩ := List.mem_map.mp hkey
    have hle := recordEntry_le hother
    have hlt := (mem_recordEntry.mp hother).2
    rw [List.mem_range'_1]
    omega
  have hnodup : (recordEntry history (seq + 1) entry).keys.Nodup :=
    List.pairwise_map.mpr ((recordEntry history (seq + 1) entry).sorted.imp ne_of_lt)
  have hlength := (List.subperm_of_subset hnodup hsubset).length_le
  rwa [SortedMap.keys, List.length_map, List.length_range'] at hlength

theorem forall_entries_iff {history : SortedMap ℕ HistoryEntry} {bound : ℕ} :
    (∀ entry ∈ history.entries, entry.1 ≤ bound) ↔ ∀ key ∈ history.keys, key ≤ bound := by
  rw [SortedMap.keys, List.forall_mem_map]

/-! ## Records -/

theorem recordBefore_keys (history : SortedMap ℕ HistoryEntry) (historyAt : ℕ)
    (settings : Option RecordedSettings) :
    (recordBefore history historyAt settings).keys = history.keys := by
  cases settings with
  | none => rfl
  | some change => exact SortedMap.adjust_keys

/-- Writing down the settings before a change leaves the rest of the entry at the cursor. -/
theorem recordBefore_get? (history : SortedMap ℕ HistoryEntry) (historyAt : ℕ)
    (settings : Option RecordedSettings) :
    ((recordBefore history historyAt settings).get? historyAt).map
        (fun head ↦ (head.snapshot, head.node, head.createdAt)) =
      (history.get? historyAt).map fun head ↦ (head.snapshot, head.node, head.createdAt) := by
  cases settings with
  | none => rfl
  | some change =>
    rw [recordBefore, SortedMap.get?_adjust_self, Option.map_map]
    rfl

theorem recordCoalesces_recordBefore {history : SortedMap ℕ HistoryEntry} {historyAt : ℕ} {now : ℤ}
    {json : String} {settings : Option RecordedSettings} {change : RecordedSettings} :
    recordCoalesces (recordBefore history historyAt settings) historyAt now json change =
      recordCoalesces history historyAt now json change := by
  have hmap : ∀ table : SortedMap ℕ HistoryEntry, recordCoalesces table historyAt now json change =
      ((table.get? historyAt).map fun head ↦ (head.snapshot, head.node, head.createdAt)).any
        fun head ↦ head.2.1 = some change.node && head.1 = json && withinCoalesce head.2.2 now := by
    intro table
    rw [recordCoalesces, Option.any_map]
  rw [hmap, hmap, recordBefore_get?]

/-- The entry a history starts from is no settings change. -/
theorem recordCoalesces_ne_zero {now : ℤ} {json : String} {settings : Option RecordedSettings}
    {change : RecordedSettings}
    (hcoalesces : recordCoalesces (recordStart workspace now settings) (recordBase workspace now).2 now json
      change = true) : workspace.historyAt ≠ 0 := by
  intro hat
  rw [recordStart, recordCoalesces_recordBefore, recordBase_of_eq hat, recordCoalesces_iff] at hcoalesces
  obtain ⟨head, hhead, hnode, -⟩ := hcoalesces
  rw [SortedMap.get?_insert_self] at hhead
  obtain rfl := Option.some.inj hhead
  cases hnode

theorem recordStart_length (now : ℤ) (settings : Option RecordedSettings)
    (hdepth : workspace.history.entries.length ≤ workspaceHistoryDepth) :
    (recordStart workspace now settings).entries.length ≤ workspaceHistoryDepth := by
  have hkeys := congrArg List.length
    (recordBefore_keys (recordBase workspace now).1 (recordBase workspace now).2 settings)
  rw [SortedMap.keys, SortedMap.keys, List.length_map, List.length_map] at hkeys
  rw [recordStart, hkeys]
  by_cases hat : workspace.historyAt = 0
  · rw [recordBase_of_eq hat]
    exact Nat.succ_le_succ (Nat.zero_le _)
  · rw [recordBase_of_ne hat]
    exact hdepth

section Records

variable {now : ℤ} {json : String} {settings : Option RecordedSettings} {result : Bool × Workspace}

theorem Records.length (hrecords : Records workspace now json settings result)
    (hdepth : workspace.history.entries.length ≤ workspaceHistoryDepth) :
    result.2.history.entries.length ≤ workspaceHistoryDepth := by
  have hstart := recordStart_length now settings hdepth
  cases hrecords with
  | nothing hnothing => exact hstart
  | coalesced change hchange hnothing hcoalesces =>
    rw [SortedMap.adjust, List.length_map]
    exact hstart
  | entry hnothing hcoalesces => exact recordEntry_length _ _ _

/-- Whatever the end of a record, the entry at the cursor holds the arrangement that was recorded. -/
theorem Records.pointed (hrecords : Records workspace now json settings result)
    (hat : result.2.historyAt ≠ 0) :
    ∃ entry, result.2.history.get? result.2.historyAt = some entry ∧ entry.snapshot = json := by
  have hbase : workspace.historyAt ≠ 0 → (recordBase workspace now).2 = workspace.historyAt :=
    fun hne ↦ recordBase_snd_of_ne hne now
  cases hrecords with
  | nothing hnothing =>
    obtain ⟨head, hhead, hsnapshot, -⟩ := recordsNothing_iff.mp hnothing
    rw [hbase hat] at hhead
    exact ⟨head, hhead, hsnapshot⟩
  | coalesced change hchange hnothing hcoalesces =>
    obtain ⟨head, hhead, -, hsnapshot, -⟩ := recordCoalesces_iff.mp hcoalesces
    refine ⟨{ head with state := some change.after, createdAt := now }, ?_, hsnapshot⟩
    rw [hbase hat] at hhead ⊢
    exact SortedMap.get?_adjust_self.trans (congrArg (Option.map _) hhead)
  | entry hnothing hcoalesces => exact ⟨_, recordEntry_get? _ _ _, rfl⟩

theorem Records.snapshot_eq (hrecords : Records workspace now json settings result) :
    result.2.snapshot = workspace.snapshot := by
  cases hrecords <;> rfl

/-- A record that neither says nothing new nor goes on with an entry leaves nothing to redo. -/
theorem Records.redo_end (hrecords : Records workspace now json settings result)
    (hnothing : recordsNothing (recordStart workspace now settings) (recordBase workspace now).2 json
      settings = false)
    (hcoalesces : ∀ change, settings = some change →
      recordCoalesces (recordStart workspace now settings) (recordBase workspace now).2 now json change =
        false) :
    ∀ entry ∈ result.2.history.entries, entry.1 ≤ result.2.historyAt := by
  cases hrecords with
  | nothing hsame => exact Bool.noConfusion (hsame.symm.trans hnothing)
  | coalesced change hchange hnew hmeets =>
    exact Bool.noConfusion (hmeets.symm.trans (hcoalesces change hchange))
  | entry hnew hown => exact fun entry hentry ↦ recordEntry_le hentry

end Records

/-! ## What every run keeps -/

/-- The stored arrangement is that of an entry, as it is written or as it is written anew. -/
def Shows (forms : Forms Snapshot State) (stored text : String) : Prop :=
  stored = text ∨ ∃ snapshot, forms.parseSnapshot text = some snapshot ∧
    stored = forms.snapshotJson snapshot

structure Kept (forms : Forms Snapshot State) (workspace : Workspace) : Prop where
  depth : workspace.history.entries.length ≤ workspaceHistoryDepth
  pointed : workspace.historyAt ≠ 0 → ∃ entry,
    workspace.history.get? workspace.historyAt = some entry ∧
      Shows forms workspace.snapshot entry.snapshot

theorem Fresh.kept (hfresh : Fresh workspace) : Kept forms workspace where
  depth := by
    rw [hfresh.history]
    exact Nat.zero_le _
  pointed hat := absurd hfresh.historyAt hat

theorem Kept.start_shows (hkept : Kept forms workspace) {now : ℤ} {settings : Option RecordedSettings}
    {head : HistoryEntry}
    (hhead : (recordStart workspace now settings).get? (recordBase workspace now).2 = some head) :
    Shows forms workspace.snapshot head.snapshot := by
  have hsame := recordBefore_get? (recordBase workspace now).1 (recordBase workspace now).2 settings
  rw [← recordStart, hhead] at hsame
  by_cases hat : workspace.historyAt = 0
  · rw [recordBase_of_eq hat, SortedMap.get?_insert_self] at hsame
    exact Or.inl (congrArg Prod.fst (Option.some.inj hsame)).symm
  · obtain ⟨entry, hentry, hshows⟩ := hkept.pointed hat
    rw [recordBase_of_ne hat, hentry] at hsame
    have hsnapshot : head.snapshot = entry.snapshot := congrArg Prod.fst (Option.some.inj hsame)
    rw [hsnapshot]
    exact hshows

theorem Kept.update (hkept : Kept forms workspace) {request : UpdateWorkspaceRequest Snapshot}
    {now recordedAt : ℤ} {info : WorkspaceInfo} {after : Workspace}
    (hok : updateWorkspace forms workspace request now recordedAt = Except.ok (info, after)) :
    Kept forms after := by
  obtain ⟨name, state, revision, ⟨-, rfl⟩ | ⟨snapshot, -, -, rfl⟩⟩ := updateWorkspace_eq_ok hok
  · exact ⟨hkept.depth, hkept.pointed⟩
  · have hrecords := recordHistory_records { workspace with name, state } recordedAt
      (forms.snapshotJson snapshot) none
    refine ⟨hrecords.length hkept.depth, fun hat ↦ ?_⟩
    obtain ⟨entry, hentry, hsnapshot⟩ := hrecords.pointed hat
    exact ⟨entry, hentry, Or.inl hsnapshot.symm⟩

theorem Kept.settings (hkept : Kept forms workspace) (change : SettingsStep State) (now : ℤ) :
    Kept forms (recordSettings forms workspace change now).2 := by
  have hrecords := recordHistory_records workspace now workspace.snapshot
    (some (recordedSettings forms change))
  have hsame : (recordSettings forms workspace change now).2.snapshot = workspace.snapshot :=
    hrecords.snapshot_eq
  refine ⟨hrecords.length hkept.depth, fun hat ↦ ?_⟩
  obtain ⟨entry, hentry, hsnapshot⟩ := hrecords.pointed hat
  exact ⟨entry, hentry, Or.inl (hsame.trans hsnapshot.symm)⟩

theorem Kept.step (hkept : Kept forms workspace) {step : Step} {now : ℤ}
    {reached : SteppedWorkspace Snapshot State} {after : Workspace}
    (hok : stepHistory forms workspace step now = Except.ok (reached, after)) : Kept forms after := by
  obtain ⟨seq, entry, snapshot, settings, hquery, hsnapshot, -, -, -, rfl⟩ := stepHistory_eq_ok hok
  have hhistory : ((settings.map (writeWorkspaceState forms workspace)).getD workspace).history =
      workspace.history := by
    cases settings <;> rfl
  have hmem : (seq, entry) ∈ workspace.history.entries := step.query_mem hquery
  refine ⟨?_, fun _ ↦ ⟨entry, ?_, Or.inr ⟨snapshot, hsnapshot, rfl⟩⟩⟩
  · dsimp only
    rw [hhistory]
    exact hkept.depth
  · dsimp only
    rw [hhistory]
    exact SortedMap.get?_eq_some.mpr hmem

theorem Kept.perform (hkept : Kept forms workspace) (call : Call Snapshot State) :
    Kept forms (call.perform forms workspace).2 := by
  cases call with
  | update request now recordedAt =>
    rcases perform_update forms workspace request now recordedAt with
      hsame | ⟨info, after, hok, hafter⟩
    · rw [hsame]
      exact hkept
    · rw [hafter]
      exact hkept.update hok
  | settings change now => exact hkept.settings change now
  | step which now =>
    rcases perform_step forms workspace which now with
      ⟨err, -, hsame⟩ | ⟨reached, after, hok, hafter⟩
    · rw [hsame]
      exact hkept
    · rw [hafter]
      exact hkept.step hok

theorem Kept.run (hkept : Kept forms workspace) (calls : List (Call Snapshot State)) :
    Kept forms (WorkspaceHistory.run forms workspace calls) := by
  induction calls generalizing workspace with
  | nil => exact hkept
  | cons call rest ih => exact ih (hkept.perform call)

/-! ## Changes -/

theorem Changes.update_redo_end (hkept : Kept forms workspace)
    (hjson : ∀ snapshot, forms.validate snapshot = true →
      forms.parseSnapshot (forms.snapshotJson snapshot) = some snapshot)
    {request : UpdateWorkspaceRequest Snapshot} {now recordedAt : ℤ}
    (hchanges : Changes forms workspace (.update request now recordedAt)) :
    ∀ entry ∈ ((Call.update request now recordedAt).perform forms workspace).2.history.entries,
      entry.1 ≤ ((Call.update request now recordedAt).perform forms workspace).2.historyAt := by
  rw [Changes] at hchanges
  rcases perform_update forms workspace request now recordedAt with hsame | ⟨info, after, hok, hafter⟩
  · exact absurd (congrArg Workspace.snapshot hsame) hchanges
  rw [hafter] at hchanges ⊢
  obtain ⟨name, state, revision, ⟨-, rfl⟩ | ⟨snapshot, -, hvalid, rfl⟩⟩ := updateWorkspace_eq_ok hok
  · exact absurd rfl hchanges
  apply (recordHistory_records { workspace with name, state } recordedAt
    (forms.snapshotJson snapshot) none).redo_end
  · -- The entry at the cursor holds the stored arrangement, which the new one differs from.
    rw [← Bool.not_eq_true]
    intro hnothing
    obtain ⟨head, hhead, hsnapshot, -⟩ := recordsNothing_iff.mp hnothing
    have hkept' : Kept forms { workspace with name, state } := ⟨hkept.depth, hkept.pointed⟩
    rcases hkept'.start_shows hhead with hstored | ⟨other, hother, hstored⟩
    · exact hchanges (hsnapshot.symm.trans hstored.symm)
    · rw [hsnapshot, hjson snapshot hvalid] at hother
      obtain rfl := Option.some.inj hother
      exact hchanges hstored.symm
  · exact fun change hchange ↦ nomatch hchange

/-- A settings change leaves something to redo exactly when it goes on with an entry before others. -/
theorem Changes.settings_redo_end_iff {change : SettingsStep State} {now : ℤ}
    (hchanges : Changes forms workspace (.settings change now)) :
    (∀ entry ∈ ((Call.settings change now).perform forms workspace).2.history.entries,
      entry.1 ≤ ((Call.settings change now).perform forms workspace).2.historyAt) ↔
      ¬CoalescesBeforeRedo forms workspace (.settings change now) := by
  have hnew : recordsNothing (recordStart workspace now (some (recordedSettings forms change)))
      (recordBase workspace now).2 workspace.snapshot (some (recordedSettings forms change)) = false := by
    rw [← Bool.not_eq_true]
    intro hnothing
    obtain ⟨head, -, -, hstate⟩ := recordsNothing_iff.mp hnothing
    exact hchanges (hstate _ rfl)
  have hrecords : Records workspace now workspace.snapshot (some (recordedSettings forms change))
      (recordSettings forms workspace change now) := recordHistory_records _ _ _ _
  change (∀ entry ∈ (recordSettings forms workspace change now).2.history.entries,
    entry.1 ≤ (recordSettings forms workspace change now).2.historyAt) ↔ _
  generalize recordSettings forms workspace change now = result at hrecords
  cases hrecords with
  | nothing hnothing => exact Bool.noConfusion (hnothing.symm.trans hnew)
  | coalesced again hagain _ hcoalesces =>
    obtain rfl := Option.some.inj hagain
    have hat : workspace.historyAt ≠ 0 := recordCoalesces_ne_zero hcoalesces
    have hmeets : recordCoalesces workspace.history workspace.historyAt now workspace.snapshot
        (recordedSettings forms change) = true := by
      rw [recordStart, recordBase_of_ne hat, recordCoalesces_recordBefore] at hcoalesces
      exact hcoalesces
    have hkeys : ((recordStart workspace now (some (recordedSettings forms change))).adjust
        (recordBase workspace now).2 fun entry ↦
          { entry with state := some (recordedSettings forms change).after, createdAt := now }).keys =
        workspace.history.keys := by
      rw [SortedMap.adjust_keys, recordStart, recordBefore_keys, recordBase_of_ne hat]
    rw [forall_entries_iff, hkeys, ← forall_entries_iff]
    constructor
    · rintro hend ⟨-, -, -, entry, hentry, hlt⟩
      exact absurd (hend entry hentry) (not_le.mpr hlt)
    · intro hnone entry hentry
      by_contra hlt
      exact hnone ⟨hchanges, hmeets, hat, entry, hentry, not_le.mp hlt⟩
  | entry _ hown =>
    refine iff_of_true (fun entry hentry ↦ recordEntry_le hentry) ?_
    rintro ⟨-, hmeets, hat, -⟩
    have hnot := hown _ rfl
    rw [recordStart, recordBase_of_ne hat, recordCoalesces_recordBefore, hmeets] at hnot
    exact Bool.noConfusion hnot

theorem Changes.redo_end_iff (hkept : Kept forms workspace)
    (hjson : ∀ snapshot, forms.validate snapshot = true →
      forms.parseSnapshot (forms.snapshotJson snapshot) = some snapshot)
    {call : Call Snapshot State} (hchanges : Changes forms workspace call) (now : ℤ) :
    redoWorkspace forms (call.perform forms workspace).2 now =
        Except.error (.workspaceHistoryEnd .redo) ↔
      ¬CoalescesBeforeRedo forms workspace call := by
  rw [redoWorkspace_eq_end]
  cases call with
  | update request at₀ recordedAt => exact iff_of_true (hchanges.update_redo_end hkept hjson) id
  | settings change at₀ => exact hchanges.settings_redo_end_iff
  | step which at₀ => exact hchanges.elim

theorem CoalescesBeforeRedo.changes {call : Call Snapshot State}
    (hcoalesces : CoalescesBeforeRedo forms workspace call) : Changes forms workspace call := by
  cases call with
  | update request now recordedAt => exact hcoalesces.elim
  | settings change now => exact hcoalesces.1
  | step which now => exact hcoalesces.elim

/-- Arrangements and settings that are their own texts. -/
def textForms : Forms String String where
  validate _ := true
  nodes _ := 1
  releasedRadios _ _ := []
  snapshotJson text := text
  parseSnapshot text := some text
  newState := ""
  forgetDevice state _ := state
  stateJson text := text
  parseState text := some text
  validName _ := true
  nameTaken _ := false

def starter : Workspace where
  name := "Workspace"
  createdAt := 0
  updatedAt := 0
  revision := 1
  nodes := 1
  snapshot := "starter"
  historyAt := 0
  state := none
  history := SortedMap.empty

theorem starter_fresh : Fresh starter := ⟨rfl, rfl⟩

/-- A dial is turned, a node is moved and put back, and the dial is turned on within the second. -/
def dialAcrossUndo : List (Call String String) :=
  [.settings { node := "device", before := "100 MHz", after := "101 MHz" } 0,
   .update { revision := 1, name := none, snapshot := some "moved" } 300000000 300000000,
   .step .undo 500000000,
   .settings { node := "device", before := "101 MHz", after := "102 MHz" } 800000000]

theorem forall_split_cons {α : Type} {P : List α → α → Prop} {first : α} {rest : List α}
    (hfirst : P [] first)
    (hrest : ∀ front call back, rest = front ++ call :: back → P (first :: front) call) :
    ∀ front call back, first :: rest = front ++ call :: back → P front call := by
  intro front call back hsplit
  cases front with
  | nil =>
    obtain ⟨rfl, -⟩ := List.cons.inj hsplit
    exact hfirst
  | cons head tail =>
    obtain ⟨rfl, htail⟩ := List.cons.inj hsplit
    exact hrest tail call back htail

end Sdrmm.WorkspaceHistory
