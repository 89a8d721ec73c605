import Mathlib.Tactic
import Sdrmm.Lib.Outcome
import Sdrmm.Lib.SortedMap

/-!
# The history of a workspace

One workspace of `server/src/store.rs`: its row in `workspaces`, its row in `workspace_state` and its rows
in `workspace_history`, with the four operations that read and write them.  Layout updates and settings
changes are recorded, and undo and redo move the cursor `history_at` over the entries.

An entry holds the whole arrangement, but settings only where they changed.  What an entry without
settings stands for is read off its neighbours by `stateAt`.

An operation that fails leaves the row as it was, as its transaction is not committed.
-/

open Sdrmm.Lib.Outcome

namespace Sdrmm.WorkspaceHistory

def workspaceHistoryDepth : ℕ := 100

/-- In nanoseconds. -/
def historyCoalesce : ℤ := 1000000000

structure HistoryEntry where
  createdAt : ℤ
  snapshot : String
  state : Option String
  node : Option String
deriving DecidableEq

structure Workspace where
  name : String
  createdAt : ℤ
  updatedAt : ℤ
  revision : ℕ
  nodes : ℕ
  snapshot : String
  /-- Which entry the snapshot of the row is, and 0 before the first edit. -/
  historyAt : ℕ
  /-- The settings a restart comes back to. -/
  state : Option String
  history : SortedMap ℕ HistoryEntry

/-- What the store takes from elsewhere: the checks and the JSON form of an arrangement and of the
settings, where `parseSnapshot` and `parseState` also bring an older form up to date, and the names other
workspaces have. -/
structure Forms (Snapshot State : Type) where
  validate : Snapshot → Bool
  nodes : Snapshot → ℕ
  /-- The radios of the second arrangement that the first lets go of. -/
  releasedRadios : Snapshot → Snapshot → List String
  snapshotJson : Snapshot → String
  parseSnapshot : String → Option Snapshot
  newState : State
  forgetDevice : State → String → State
  stateJson : State → String
  parseState : String → Option State
  validName : String → Bool
  nameTaken : String → Bool

inductive Step
  | undo
  | redo
deriving DecidableEq

inductive StoreError
  | invalidSnapshot
  | invalidName
  | nameTaken (name : String)
  | workspaceConflict (sent current : ℕ)
  | workspaceHistoryEnd (step : Step)
  | json
deriving DecidableEq

/-! ## Reading the history -/

/-- `SELECT … WHERE seq < at ORDER BY seq DESC` for undo, `seq > at ORDER BY seq ASC` for redo. -/
def Step.query (step : Step) (history : SortedMap ℕ HistoryEntry) (historyAt : ℕ) :
    Option (ℕ × HistoryEntry) :=
  match step with
  | .undo => history.findRev? fun entry ↦ entry.1 < historyAt
  | .redo => history.find? fun entry ↦ historyAt < entry.1

/-- The settings an entry stands for: those of the nearest entry behind it that has some, else those of the
nearest one ahead. -/
def stateAt (history : SortedMap ℕ HistoryEntry) (seq : ℕ) : Option String :=
  let behind := history.findRev? fun entry ↦ entry.1 ≤ seq && entry.2.state.isSome
  let ahead := history.find? fun entry ↦ seq < entry.1 && entry.2.state.isSome
  (behind.or ahead).bind fun entry ↦ entry.2.state

def withinCoalesce (entry now : ℤ) : Bool := 0 ≤ now - entry && now - entry ≤ historyCoalesce

structure History where
  canUndo : Bool
  canRedo : Bool
deriving DecidableEq

def readHistory (workspace : Workspace) : History where
  canUndo := workspace.history.entries.any fun entry ↦ entry.1 < workspace.historyAt
  canRedo := workspace.history.entries.any fun entry ↦ workspace.historyAt < entry.1

/-! ## Recording -/

structure RecordedSettings where
  node : String
  before : String
  after : String

/-- The entry a record is measured against.  Before the first edit the history is started over from the
arrangement that is there. -/
def recordBase (workspace : Workspace) (now : ℤ) : SortedMap ℕ HistoryEntry × ℕ :=
  if workspace.historyAt = 0 then
    (SortedMap.empty.insert 1
      { createdAt := now, snapshot := workspace.snapshot, state := none, node := none }, 1)
  else (workspace.history, workspace.historyAt)

/-- `UPDATE … SET state = before WHERE seq = at AND state IS NULL`. -/
def recordBefore (history : SortedMap ℕ HistoryEntry) (historyAt : ℕ)
    (settings : Option RecordedSettings) : SortedMap ℕ HistoryEntry :=
  match settings with
  | none => history
  | some settings => history.adjust historyAt fun entry ↦
      { entry with state := entry.state.or (some settings.before) }

/-- The record says what the entry at the cursor says already. -/
def recordsNothing (history : SortedMap ℕ HistoryEntry) (historyAt : ℕ) (json : String)
    (settings : Option RecordedSettings) : Bool :=
  (history.get? historyAt).any (fun head ↦ head.snapshot = json) &&
    match settings with
    | none => true
    | some settings => stateAt history historyAt = some settings.after

/-- The record goes on with the gesture that wrote the entry at the cursor. -/
def recordCoalesces (history : SortedMap ℕ HistoryEntry) (historyAt : ℕ) (now : ℤ) (json : String)
    (settings : RecordedSettings) : Bool :=
  (history.get? historyAt).any fun head ↦
    head.node = some settings.node && head.snapshot = json && withinCoalesce head.createdAt now

def recordEntry (history : SortedMap ℕ HistoryEntry) (seq : ℕ) (entry : HistoryEntry) :
    SortedMap ℕ HistoryEntry :=
  let kept := history.retain fun other ↦ !(seq - 1 < other)
  -- `seq <= new - WORKSPACE_HISTORY_DEPTH` on integers that may be negative.
  (kept.insert seq entry).retain fun other ↦ !(other + workspaceHistoryDepth ≤ seq)

def recordHistory (workspace : Workspace) (now : ℤ) (json : String)
    (settings : Option RecordedSettings) : Bool × Workspace :=
  let base := recordBase workspace now
  let historyAt := base.2
  let history := recordBefore base.1 historyAt settings
  if recordsNothing history historyAt json settings then
    (false, { workspace with history })
  else if settings.any (recordCoalesces history historyAt now json) then
    (false, { workspace with
      history := history.adjust historyAt fun entry ↦
        { entry with state := settings.map RecordedSettings.after, createdAt := now } })
  else
    let seq := historyAt + 1
    let entry :=
      { createdAt := now, snapshot := json, state := settings.map RecordedSettings.after,
        node := settings.map RecordedSettings.node }
    (true, { workspace with history := recordEntry history seq entry, historyAt := seq })

/-! ## The operations -/

variable {Snapshot State : Type}

structure UpdateWorkspaceRequest (Snapshot : Type) where
  revision : ℕ
  name : Option String
  snapshot : Option Snapshot

structure WorkspaceInfo where
  name : String
  createdAt : ℤ
  updatedAt : ℤ
  revision : ℕ
  nodes : ℕ

structure WorkspaceDetail (Snapshot State : Type) where
  info : WorkspaceInfo
  snapshot : Snapshot
  history : History
  state : State

structure SteppedWorkspace (Snapshot State : Type) where
  detail : WorkspaceDetail Snapshot State
  /-- The settings the step reached, and `none` when the radios are to be left where they are. -/
  settings : Option State

structure SettingsStep (State : Type) where
  node : String
  before : State
  after : State

section Operations

variable (forms : Forms Snapshot State)

def readWorkspaceInfo (workspace : Workspace) : WorkspaceInfo where
  name := workspace.name
  createdAt := workspace.createdAt
  updatedAt := workspace.updatedAt
  revision := workspace.revision
  nodes := workspace.nodes

def parseSnapshot (json : String) : Except StoreError Snapshot :=
  ((forms.parseSnapshot json).map Except.ok).getD (Except.error .json)

def parseState (json : String) : Except StoreError State :=
  ((forms.parseState json).map Except.ok).getD (Except.error .json)

def readWorkspaceState (workspace : Workspace) : Except StoreError State :=
  match workspace.state with
  | some json => parseState forms json
  | none => Except.ok forms.newState

def writeWorkspaceState (workspace : Workspace) (state : State) : Workspace :=
  { workspace with state := some (forms.stateJson state) }

def readWorkspace (workspace : Workspace) : Except StoreError (WorkspaceDetail Snapshot State) := do
  let snapshot ← parseSnapshot forms workspace.snapshot
  let state ← readWorkspaceState forms workspace
  return { info := readWorkspaceInfo workspace, snapshot, history := readHistory workspace, state }

def forgetReleasedRadios (workspace : Workspace) (snapshot : Snapshot) : Except StoreError Workspace := do
  let before ← parseSnapshot forms workspace.snapshot
  let released := forms.releasedRadios snapshot before
  if released.isEmpty then
    return workspace
  let state ← readWorkspaceState forms workspace
  return writeWorkspaceState forms workspace (released.foldl forms.forgetDevice state)

/-- The greatest value of the column. -/
def maxRevision : ℕ := 2 ^ 63 - 1

def checkRequest (workspace : Workspace) (request : UpdateWorkspaceRequest Snapshot) :
    Except StoreError Unit :=
  if request.snapshot.any fun snapshot ↦ !forms.validate snapshot then Except.error .invalidSnapshot
  else if request.name.any fun name ↦ !forms.validName name then Except.error .invalidName
  else if workspace.revision = request.revision then Except.ok ()
  else Except.error (.workspaceConflict request.revision workspace.revision)

def renameWorkspace (workspace : Workspace) : Option String → Except StoreError Workspace
  | none => Except.ok workspace
  | some name =>
    if forms.nameTaken name then Except.error (.nameTaken name) else Except.ok { workspace with name }

def arrangeWorkspace (workspace : Workspace) (now : ℤ) : Option Snapshot → Except StoreError Workspace
  | none => Except.ok workspace
  | some snapshot => do
    let workspace ← forgetReleasedRadios forms workspace snapshot
    let json := forms.snapshotJson snapshot
    let recorded := recordHistory workspace now json none
    return { recorded.2 with snapshot := json, nodes := forms.nodes snapshot }

/-- `now` is read for the row and `recordedAt` for the entry. -/
def updateWorkspace (workspace : Workspace) (request : UpdateWorkspaceRequest Snapshot)
    (now recordedAt : ℤ) : Except StoreError (WorkspaceInfo × Workspace) := do
  checkRequest forms workspace request
  let revision := min (workspace.revision + 1) maxRevision
  let renamed ← renameWorkspace forms workspace request.name
  let arranged ← arrangeWorkspace forms renamed recordedAt request.snapshot
  let updated := { arranged with revision, updatedAt := now }
  return (readWorkspaceInfo updated, updated)

def recordedSettings (step : SettingsStep State) : RecordedSettings where
  node := step.node
  before := forms.stateJson step.before
  after := forms.stateJson step.after

def recordSettings (workspace : Workspace) (step : SettingsStep State) (now : ℤ) : Bool × Workspace :=
  recordHistory workspace now workspace.snapshot (some (recordedSettings forms step))

/-- The settings a step has to put in force. -/
def stepSettings (history : SortedMap ℕ HistoryEntry) (historyAt seq : ℕ) :
    Except StoreError (Option State) :=
  let leaving := stateAt history historyAt
  match stateAt history seq with
  | none => Except.ok none
  | some reaching =>
    if some reaching = leaving then Except.ok none else some <$> parseState forms reaching

def stepHistory (workspace : Workspace) (step : Step) (now : ℤ) :
    Except StoreError (SteppedWorkspace Snapshot State × Workspace) :=
  match step.query workspace.history workspace.historyAt with
  | none => Except.error (.workspaceHistoryEnd step)
  | some (seq, entry) => do
    let snapshot ← parseSnapshot forms entry.snapshot
    let settings ← stepSettings forms workspace.history workspace.historyAt seq
    let workspace := (settings.map (writeWorkspaceState forms workspace)).getD workspace
    let workspace :=
      { workspace with
        snapshot := forms.snapshotJson snapshot, nodes := forms.nodes snapshot, historyAt := seq,
        revision := workspace.revision + 1, updatedAt := now }
    let detail ← readWorkspace forms workspace
    return ({ detail, settings }, workspace)

def undoWorkspace (workspace : Workspace) (now : ℤ) :
    Except StoreError (SteppedWorkspace Snapshot State × Workspace) :=
  stepHistory forms workspace .undo now

def redoWorkspace (workspace : Workspace) (now : ℤ) :
    Except StoreError (SteppedWorkspace Snapshot State × Workspace) :=
  stepHistory forms workspace .redo now

/-! ## Runs -/

inductive Call (Snapshot State : Type)
  | update (request : UpdateWorkspaceRequest Snapshot) (now recordedAt : ℤ)
  | settings (change : SettingsStep State) (now : ℤ)
  | step (which : Step) (now : ℤ)

inductive Answer (Snapshot State : Type)
  | updated (info : WorkspaceInfo)
  | recorded (new : Bool)
  | stepped (reached : SteppedWorkspace Snapshot State)

/-- What a call does within its transaction. -/
def Call.body (workspace : Workspace) :
    Call Snapshot State → Except StoreError (Answer Snapshot State × Workspace)
  | .update request now recordedAt =>
    Prod.map Answer.updated id <$> updateWorkspace forms workspace request now recordedAt
  | .settings change now =>
    Except.ok (Prod.map Answer.recorded id (recordSettings forms workspace change now))
  | .step which now => Prod.map Answer.stepped id <$> stepHistory forms workspace which now

/-- A call, of which an error takes back what was done before it. -/
def Call.perform (workspace : Workspace) (call : Call Snapshot State) :
    Except StoreError (Answer Snapshot State) × Workspace :=
  match call.body forms workspace with
  | .ok (answer, workspace) => (Except.ok answer, workspace)
  | .error err => (Except.error err, workspace)

def run (workspace : Workspace) (calls : List (Call Snapshot State)) : Workspace :=
  calls.foldl (fun workspace call ↦ (call.perform forms workspace).2) workspace

end Operations

/-! ## What the operations can do -/

variable {forms : Forms Snapshot State} {workspace : Workspace}

theorem recordsNothing_iff {history : SortedMap ℕ HistoryEntry} {historyAt : ℕ} {json : String}
    {settings : Option RecordedSettings} :
    recordsNothing history historyAt json settings = true ↔
      ∃ head, history.get? historyAt = some head ∧ head.snapshot = json ∧
        ∀ change, settings = some change → stateAt history historyAt = some change.after := by
  cases settings with
  | none => simp [recordsNothing, Option.any_eq_true]
  | some change =>
    simp only [recordsNothing, Bool.and_eq_true, Option.any_eq_true, decide_eq_true_iff,
      Option.some.injEq, forall_eq']
    rw [← exists_and_right]
    exact exists_congr fun head ↦ and_assoc

theorem recordCoalesces_iff {history : SortedMap ℕ HistoryEntry} {historyAt : ℕ} {now : ℤ}
    {json : String} {change : RecordedSettings} :
    recordCoalesces history historyAt now json change = true ↔
      ∃ head, history.get? historyAt = some head ∧ head.node = some change.node ∧
        head.snapshot = json ∧ withinCoalesce head.createdAt now = true := by
  simp [recordCoalesces, Option.any_eq_true, and_assoc]

theorem recordBase_of_ne (hat : workspace.historyAt ≠ 0) (now : ℤ) :
    recordBase workspace now = (workspace.history, workspace.historyAt) := if_neg hat

theorem recordBase_of_eq (hat : workspace.historyAt = 0) (now : ℤ) :
    recordBase workspace now = (SortedMap.empty.insert 1
      { createdAt := now, snapshot := workspace.snapshot, state := none, node := none }, 1) := if_pos hat

theorem recordBase_snd_of_ne (hat : workspace.historyAt ≠ 0) (now : ℤ) :
    (recordBase workspace now).2 = workspace.historyAt := congrArg Prod.snd (recordBase_of_ne hat now)

/-- The history a record is measured against, once the settings before it are written down. -/
def recordStart (workspace : Workspace) (now : ℤ) (settings : Option RecordedSettings) :
    SortedMap ℕ HistoryEntry :=
  recordBefore (recordBase workspace now).1 (recordBase workspace now).2 settings

/-- The three ends of a record: it says nothing new, it goes on with the entry at the cursor, or it is an
entry of its own. -/
inductive Records (workspace : Workspace) (now : ℤ) (json : String) (settings : Option RecordedSettings) :
    Bool × Workspace → Prop
  | nothing
    (hnothing : recordsNothing (recordStart workspace now settings) (recordBase workspace now).2 json
      settings = true) :
    Records workspace now json settings
      (false, { workspace with history := recordStart workspace now settings })
  | coalesced (change : RecordedSettings) (hchange : settings = some change)
    (hnothing : recordsNothing (recordStart workspace now settings) (recordBase workspace now).2 json
      settings = false)
    (hcoalesces : recordCoalesces (recordStart workspace now settings) (recordBase workspace now).2 now json
      change = true) :
    Records workspace now json settings
      (false, { workspace with
        history := (recordStart workspace now settings).adjust (recordBase workspace now).2 fun entry ↦
          { entry with state := some change.after, createdAt := now } })
  | entry
    (hnothing : recordsNothing (recordStart workspace now settings) (recordBase workspace now).2 json
      settings = false)
    (hcoalesces : ∀ change, settings = some change →
      recordCoalesces (recordStart workspace now settings) (recordBase workspace now).2 now json change =
        false) :
    Records workspace now json settings
      (true, { workspace with
        history := recordEntry (recordStart workspace now settings) ((recordBase workspace now).2 + 1)
          { createdAt := now, snapshot := json, state := settings.map RecordedSettings.after,
            node := settings.map RecordedSettings.node },
        historyAt := (recordBase workspace now).2 + 1 })

theorem recordHistory_records (workspace : Workspace) (now : ℤ) (json : String)
    (settings : Option RecordedSettings) :
    Records workspace now json settings (recordHistory workspace now json settings) := by
  unfold recordHistory
  dsimp only
  split_ifs with hnothing hcoalesces
  · exact Records.nothing hnothing
  · cases settings with
    | none => exact absurd hcoalesces Bool.false_ne_true
    | some change => exact Records.coalesced change rfl (Bool.eq_false_of_not_eq_true hnothing) hcoalesces
  · refine Records.entry (Bool.eq_false_of_not_eq_true hnothing) ?_
    rintro change rfl
    exact Bool.eq_false_of_not_eq_true hcoalesces

theorem renameWorkspace_eq_ok {name : Option String} {after : Workspace}
    (hok : renameWorkspace forms workspace name = Except.ok after) :
    ∃ name, after = { workspace with name } := by
  cases name with
  | none => exact ⟨workspace.name, (Except.ok.inj hok).symm⟩
  | some name =>
    rw [renameWorkspace] at hok
    split_ifs at hok
    exact ⟨name, (Except.ok.inj hok).symm⟩

theorem forgetReleasedRadios_eq_ok {snapshot : Snapshot} {after : Workspace}
    (hok : forgetReleasedRadios forms workspace snapshot = Except.ok after) :
    ∃ state, after = { workspace with state } := by
  obtain ⟨before, -, hok⟩ := bind_eq_ok.mp hok
  dsimp only at hok
  split_ifs at hok
  · exact ⟨workspace.state, (Except.ok.inj hok).symm⟩
  · obtain ⟨state, -, hok⟩ := bind_eq_ok.mp hok
    exact ⟨_, (Except.ok.inj hok).symm⟩

theorem checkRequest_valid {request : UpdateWorkspaceRequest Snapshot} {snapshot : Snapshot} {done : Unit}
    (hok : checkRequest forms workspace request = Except.ok done)
    (hsnapshot : request.snapshot = some snapshot) : forms.validate snapshot = true := by
  unfold checkRequest at hok
  split_ifs at hok with hinvalid
  rw [hsnapshot, Option.any_some, Bool.not_eq_true', Bool.not_eq_false] at hinvalid
  exact hinvalid

/-- An update renames the workspace, forgets radios and records its arrangement. -/
theorem updateWorkspace_eq_ok {request : UpdateWorkspaceRequest Snapshot} {now recordedAt : ℤ}
    {info : WorkspaceInfo} {after : Workspace}
    (hok : updateWorkspace forms workspace request now recordedAt = Except.ok (info, after)) :
    ∃ name state revision,
      (request.snapshot = none ∧ after = { workspace with name, state, revision, updatedAt := now } ∨
        ∃ snapshot, request.snapshot = some snapshot ∧ forms.validate snapshot = true ∧
          after =
            { (recordHistory { workspace with name, state } recordedAt (forms.snapshotJson snapshot) none).2
              with snapshot := forms.snapshotJson snapshot, nodes := forms.nodes snapshot, revision,
                   updatedAt := now }) := by
  obtain ⟨_, hcheck, hok⟩ := bind_eq_ok.mp hok
  obtain ⟨renamed, hrenamed, hok⟩ := bind_eq_ok.mp hok
  obtain ⟨arranged, harranged, hok⟩ := bind_eq_ok.mp hok
  obtain ⟨-, rfl⟩ := Prod.mk.inj (Except.ok.inj hok)
  obtain ⟨name, rfl⟩ := renameWorkspace_eq_ok hrenamed
  cases hsnapshot : request.snapshot with
  | none =>
    rw [hsnapshot] at harranged
    obtain rfl := Except.ok.inj harranged
    exact ⟨name, workspace.state, min (workspace.revision + 1) maxRevision, Or.inl ⟨rfl, rfl⟩⟩
  | some snapshot =>
    rw [hsnapshot] at harranged
    obtain ⟨kept, hkept, harranged⟩ := bind_eq_ok.mp harranged
    obtain ⟨state, rfl⟩ := forgetReleasedRadios_eq_ok hkept
    obtain rfl := Except.ok.inj harranged
    have hvalid := checkRequest_valid hcheck hsnapshot
    exact ⟨name, state, min (workspace.revision + 1) maxRevision, Or.inr ⟨snapshot, rfl, hvalid, rfl⟩⟩

theorem parseSnapshot_eq_ok {json : String} {snapshot : Snapshot} :
    parseSnapshot forms json = Except.ok snapshot ↔ forms.parseSnapshot json = some snapshot := by
  unfold parseSnapshot
  cases forms.parseSnapshot json <;> simp

theorem parseState_eq_ok {json : String} {state : State} :
    parseState forms json = Except.ok state ↔ forms.parseState json = some state := by
  unfold parseState
  cases forms.parseState json <;> simp

/-- A step moves the cursor to the entry its query finds. -/
theorem stepHistory_eq_ok {step : Step} {now : ℤ} {reached : SteppedWorkspace Snapshot State}
    {after : Workspace} (hok : stepHistory forms workspace step now = Except.ok (reached, after)) :
    ∃ seq entry snapshot settings, step.query workspace.history workspace.historyAt = some (seq, entry) ∧
      forms.parseSnapshot entry.snapshot = some snapshot ∧
      stepSettings forms workspace.history workspace.historyAt seq = Except.ok settings ∧
      readWorkspace forms after = Except.ok reached.detail ∧ reached.settings = settings ∧
      after =
        { (settings.map (writeWorkspaceState forms workspace)).getD workspace with
          snapshot := forms.snapshotJson snapshot, nodes := forms.nodes snapshot, historyAt := seq,
          revision := workspace.revision + 1, updatedAt := now } := by
  unfold stepHistory at hok
  cases hquery : step.query workspace.history workspace.historyAt with
  | none =>
    rw [hquery] at hok
    cases hok
  | some target =>
    rw [hquery] at hok
    obtain ⟨snapshot, hsnapshot, hok⟩ := bind_eq_ok.mp hok
    obtain ⟨settings, hsettings, hok⟩ := bind_eq_ok.mp hok
    obtain ⟨detail, hdetail, hok⟩ := bind_eq_ok.mp hok
    obtain ⟨rfl, rfl⟩ := Prod.mk.inj (Except.ok.inj hok)
    have hrevision : ((settings.map (writeWorkspaceState forms workspace)).getD workspace).revision =
        workspace.revision := by
      cases settings <;> rfl
    rw [hrevision] at hdetail ⊢
    exact ⟨target.1, target.2, snapshot, settings, rfl, parseSnapshot_eq_ok.mp hsnapshot, hsettings,
      hdetail, rfl, rfl⟩

theorem perform_of_error {call : Call Snapshot State} {err : StoreError}
    (hbody : call.body forms workspace = Except.error err) :
    call.perform forms workspace = (Except.error err, workspace) := by
  rw [Call.perform, hbody]

theorem perform_of_ok {call : Call Snapshot State} {answer : Answer Snapshot State} {after : Workspace}
    (hbody : call.body forms workspace = Except.ok (answer, after)) :
    call.perform forms workspace = (Except.ok answer, after) := by
  rw [Call.perform, hbody]

variable (forms workspace) in
theorem perform_update (request : UpdateWorkspaceRequest Snapshot) (now recordedAt : ℤ) :
    ((Call.update request now recordedAt).perform forms workspace).2 = workspace ∨
      ∃ info after, updateWorkspace forms workspace request now recordedAt = Except.ok (info, after) ∧
        ((Call.update request now recordedAt).perform forms workspace).2 = after := by
  cases hupdate : updateWorkspace forms workspace request now recordedAt with
  | error err =>
    have hbody : (Call.update request now recordedAt).body forms workspace = Except.error err :=
      congrArg (Prod.map Answer.updated id <$> ·) hupdate
    exact Or.inl (congrArg Prod.snd (perform_of_error hbody))
  | ok result =>
    have hbody : (Call.update request now recordedAt).body forms workspace =
        Except.ok (Answer.updated result.1, result.2) :=
      congrArg (Prod.map Answer.updated id <$> ·) hupdate
    exact Or.inr ⟨result.1, result.2, rfl, congrArg Prod.snd (perform_of_ok hbody)⟩

variable (forms workspace) in
theorem perform_step (step : Step) (now : ℤ) :
    (∃ err, stepHistory forms workspace step now = Except.error err ∧
      (Call.step step now).perform forms workspace = (Except.error err, workspace)) ∨
      ∃ reached after, stepHistory forms workspace step now = Except.ok (reached, after) ∧
        (Call.step step now).perform forms workspace = (Except.ok (Answer.stepped reached), after) := by
  cases hstep : stepHistory forms workspace step now with
  | error err =>
    have hbody : (Call.step step now).body forms workspace = Except.error err :=
      congrArg (Prod.map Answer.stepped id <$> ·) hstep
    exact Or.inl ⟨err, rfl, perform_of_error hbody⟩
  | ok result =>
    have hbody : (Call.step step now).body forms workspace =
        Except.ok (Answer.stepped result.1, result.2) :=
      congrArg (Prod.map Answer.stepped id <$> ·) hstep
    exact Or.inr ⟨result.1, result.2, rfl, perform_of_ok hbody⟩

theorem run_append (workspace : Workspace) (front back : List (Call Snapshot State)) :
    run forms workspace (front ++ back) = run forms (run forms workspace front) back :=
  List.foldl_append

end Sdrmm.WorkspaceHistory
