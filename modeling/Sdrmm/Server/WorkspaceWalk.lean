import Sdrmm.Lib.Held
import Sdrmm.Server.WorkspaceRedo

/-!
# Walking the history of a workspace

Undo and redo against what the operator had: the arrangement and the settings in force while an entry was
at the cursor.  `undo_redo_walk` holds of every run in which the settings change only as they are recorded:
each step reaches the neighbouring entry and brings back both, however sparse the settings are written
down and however many old entries were dropped.
-/

open Sdrmm.Lib.Outcome Sdrmm.Lib.Held

namespace Sdrmm.WorkspaceHistory

variable {Snapshot State : Type} {forms : Forms Snapshot State}

/-- A workspace with the settings its radios have. -/
structure Live (State : Type) where
  workspace : Workspace
  inForce : State

namespace Live

/-- A call, after which the settings are those a change left or a step answered. -/
def next (forms : Forms Snapshot State) (live : Live State) (call : Call Snapshot State) : Live State where
  workspace := (call.perform forms live.workspace).2
  inForce :=
    match call, (call.perform forms live.workspace).1 with
    | .settings change _, _ => change.after
    | .step _ _, .ok (.stepped reached) => reached.settings.getD live.inForce
    | _, _ => live.inForce

def walk (forms : Forms Snapshot State) (live : Live State) (calls : List (Call Snapshot State)) :
    Live State :=
  calls.foldl (next forms) live

/-- The entry at the cursor, which is the first one to be written before there is any. -/
def place (live : Live State) : ℕ :=
  if live.workspace.historyAt = 0 then 1 else live.workspace.historyAt

/-- What the operator sees of a workspace. -/
def shown (live : Live State) : String × State := (live.workspace.snapshot, live.inForce)

/-- The last time in a run that an entry was at the cursor. -/
def lastCurrent (forms : Forms Snapshot State) (live : Live State) :
    List (Call Snapshot State) → ℕ → Option (Live State)
  | [], seq => if live.place = seq then some live else none
  | call :: rest, seq =>
    ((live.next forms call).lastCurrent forms rest seq).or (if live.place = seq then some live else none)

end Live

/-- A text that is written anew as it is. -/
def Current (forms : Forms Snapshot State) (text : String) : Prop :=
  ∃ snapshot, forms.parseSnapshot text = some snapshot ∧ forms.snapshotJson snapshot = text

/-- What was written reads back as it was. -/
structure Faithful (forms : Forms Snapshot State) : Prop where
  snapshot : ∀ snapshot, forms.validate snapshot = true →
    forms.parseSnapshot (forms.snapshotJson snapshot) = some snapshot
  state : ∀ state, forms.parseState (forms.stateJson state) = some state

theorem Faithful.stateJson_inj (hfaithful : Faithful forms) {a b : State}
    (hjson : forms.stateJson a = forms.stateJson b) : a = b := by
  have hread := hfaithful.state a
  rw [hjson, hfaithful.state b] at hread
  exact (Option.some.inj hread).symm

/-- No radio is let go of, settings change from those in force, and no change goes on with an entry that
has others after it. -/
def Proper (forms : Forms Snapshot State) (live : Live State) : Call Snapshot State → Prop
  | .update request _ _ => ∀ snapshot ∈ request.snapshot, ∀ before,
    forms.parseSnapshot live.workspace.snapshot = some before → forms.releasedRadios snapshot before = []
  | .settings change now =>
    change.before = live.inForce ∧ ¬CoalescesBeforeRedo forms live.workspace (.settings change now)
  | .step _ _ => True

/-! ## The entries of a table -/

/-- What the entries of a table stand for. -/
structure Tracked (forms : Forms Snapshot State) (history : SortedMap ℕ HistoryEntry)
    (value : ℕ → String × State) : Prop where
  stands : Stands history HistoryEntry.state fun seq ↦ forms.stateJson (value seq).2
  snapshot : ∀ entry ∈ history.entries, entry.2.snapshot = (value entry.1).1
  written : ∀ entry ∈ history.entries, ∀ next ∈ history.entries, next.1 = entry.1 + 1 →
    next.2.node.isSome → entry.2.state.isSome

variable {history : SortedMap ℕ HistoryEntry} {value : ℕ → String × State} {seq : ℕ}

/-- The entry a history starts from stands for what there is. -/
theorem tracked_first {now : ℤ} {snapshot : String} (hsnapshot : snapshot = (value 1).1) :
    Tracked forms (SortedMap.empty.insert 1 { createdAt := now, snapshot, state := none, node := none })
      value := by
  refine ⟨⟨?_, ?_, ?_⟩, ?_, ?_⟩
  · intro low hlow high hhigh key hfrom hto
    obtain ⟨lower, hlower⟩ := SortedMap.mem_keys.mp hlow
    obtain ⟨higher, hhigher⟩ := SortedMap.mem_keys.mp hhigh
    obtain ⟨rfl, -⟩ := Prod.mk.inj (SortedMap.mem_insert_empty.mp hlower)
    obtain ⟨rfl, -⟩ := Prod.mk.inj (SortedMap.mem_insert_empty.mp hhigher)
    rw [Nat.le_antisymm hto hfrom]
    exact hlow
  · intro entry hentry given hgiven
    rw [SortedMap.mem_insert_empty.mp hentry] at hgiven
    cases hgiven
  · intro entry hentry next hnext hsucc
    rw [SortedMap.mem_insert_empty.mp hentry, SortedMap.mem_insert_empty.mp hnext] at hsucc
    exact absurd hsucc (Nat.ne_of_lt Nat.one_lt_two)
  · intro entry hentry
    rw [SortedMap.mem_insert_empty.mp hentry]
    exact hsnapshot
  · intro entry hentry next hnext hsucc
    rw [SortedMap.mem_insert_empty.mp hentry, SortedMap.mem_insert_empty.mp hnext] at hsucc
    exact absurd hsucc (Nat.ne_of_lt Nat.one_lt_two)

theorem isSome_state_or {state : Option String} {before : String} :
    (state.or (some before)).isSome = true := by
  cases state <;> rfl

/-- Writing down what an entry stands for changes none of what the table stands for. -/
theorem Tracked.before (htracked : Tracked forms history value) {settings : Option RecordedSettings}
    (hbefore : ∀ change, settings = some change → change.before = forms.stateJson (value seq).2) :
    Tracked forms (recordBefore history seq settings) value := by
  cases settings with
  | none => exact htracked
  | some change =>
    have hgiven := hbefore change rfl
    have hgrows : ∀ entry ∈ (recordBefore history seq (some change)).entries, ∃ old,
        (entry.1, old) ∈ history.entries ∧ entry.2.snapshot = old.snapshot ∧ entry.2.node = old.node ∧
          (entry.2.state = old.state ∨ entry.2.state = some (forms.stateJson (value entry.1).2)) ∧
          (old.state.isSome → entry.2.state.isSome) := by
      intro entry hentry
      obtain ⟨old, hold, heq⟩ := SortedMap.exists_of_mem_adjust hentry
      refine ⟨old, hold, ?_⟩
      rw [heq]
      split_ifs with hkey
      · refine ⟨rfl, rfl, ?_, fun _ ↦ isSome_state_or⟩
        cases hstate : old.state with
        | none => exact Or.inr (congrArg some (hgiven.trans (by rw [hkey])))
        | some given => exact Or.inl rfl
      · exact ⟨rfl, rfl, Or.inl rfl, id⟩
    refine ⟨⟨?_, ?_, ?_⟩, ?_, ?_⟩
    · rw [recordBefore_keys]
      exact htracked.stands.gapless
    · intro entry hentry given hstate
      obtain ⟨old, hold, -, -, hsame | hwritten, -⟩ := hgrows entry hentry
      · exact htracked.stands.own_eq (entry.1, old) hold given (hsame.symm.trans hstate)
      · exact Option.some.inj (hstate.symm.trans hwritten)
    · intro entry hentry next hnext hsucc hchange
      obtain ⟨old, hold, -, -, -, hkept⟩ := hgrows entry hentry
      obtain ⟨oldNext, holdNext, -, -, -, hkeptNext⟩ := hgrows next hnext
      have hboth := htracked.stands.change (entry.1, old) hold (next.1, oldNext) holdNext hsucc hchange
      exact ⟨hkept hboth.1, hkeptNext hboth.2⟩
    · intro entry hentry
      obtain ⟨old, hold, hsnapshot, -⟩ := hgrows entry hentry
      exact hsnapshot.trans (htracked.snapshot (entry.1, old) hold)
    · intro entry hentry next hnext hsucc hnode
      obtain ⟨old, hold, -, -, -, hkept⟩ := hgrows entry hentry
      obtain ⟨oldNext, holdNext, -, hsame, -⟩ := hgrows next hnext
      rw [hsame] at hnode
      exact hkept (htracked.written (entry.1, old) hold (next.1, oldNext) holdNext hsucc hnode)

/-- The last entry goes on with the change it was written for. -/
theorem Tracked.amend (htracked : Tracked forms history value)
    (hlast : ∀ entry ∈ history.entries, entry.1 ≤ seq) {head : HistoryEntry}
    (hhead : (seq, head) ∈ history.entries) (hnode : head.node.isSome) (after : State) (now : ℤ) :
    Tracked forms
      (history.adjust seq fun entry ↦
        { entry with state := some (forms.stateJson after), createdAt := now })
      (Function.update value seq ((value seq).1, after)) := by
  have hentries : ∀ entry ∈ (history.adjust seq fun entry ↦
      { entry with state := some (forms.stateJson after), createdAt := now }).entries,
      entry.1 = seq ∧ entry.2 = { head with state := some (forms.stateJson after), createdAt := now } ∨
        entry.1 < seq ∧ entry ∈ history.entries := by
    intro entry hentry
    rcases SortedMap.mem_adjust.mp hentry with ⟨hmem, hne⟩ | ⟨old, hold, rfl⟩
    · exact Or.inr ⟨lt_of_le_of_ne (hlast entry hmem) hne, hmem⟩
    · obtain ⟨-, rfl⟩ := Prod.mk.inj (SortedMap.entries_inj hold hhead rfl)
      exact Or.inl ⟨rfl, rfl⟩
  have hvalue : ∀ {key : ℕ}, key < seq →
      Function.update value seq ((value seq).1, after) key = value key :=
    fun hlt ↦ Function.update_of_ne (Nat.ne_of_lt hlt) _ _
  refine ⟨⟨?_, ?_, ?_⟩, ?_, ?_⟩
  · rw [SortedMap.adjust_keys]
    exact htracked.stands.gapless
  · intro entry hentry given hgiven
    rcases hentries entry hentry with ⟨hkey, heq⟩ | ⟨hlt, hmem⟩
    · rw [heq] at hgiven
      rw [hkey, Function.update_self]
      exact (Option.some.inj hgiven).symm
    · rw [hvalue hlt]
      exact htracked.stands.own_eq entry hmem given hgiven
  · intro entry hentry next hnext hsucc hchange
    rcases hentries entry hentry with ⟨hkey, heq⟩ | ⟨hlt, hmem⟩
    · rcases hentries next hnext with ⟨hnextkey, -⟩ | ⟨hnextlt, -⟩ <;> omega
    rcases hentries next hnext with ⟨hnextkey, hnexteq⟩ | ⟨hnextlt, hnextmem⟩
    · rw [hnexteq]
      refine ⟨htracked.written entry hmem (seq, head) hhead ?_ hnode, rfl⟩
      exact hnextkey.symm.trans hsucc
    · rw [hvalue hlt, hvalue hnextlt] at hchange
      exact htracked.stands.change entry hmem next hnextmem hsucc hchange
  · intro entry hentry
    rcases hentries entry hentry with ⟨hkey, heq⟩ | ⟨hlt, hmem⟩
    · rw [heq, hkey, Function.update_self]
      exact htracked.snapshot (seq, head) hhead
    · rw [hvalue hlt]
      exact htracked.snapshot entry hmem
  · intro entry hentry next hnext hsucc hnextnode
    rcases hentries entry hentry with ⟨hkey, heq⟩ | ⟨hlt, hmem⟩
    · rw [heq]
      rfl
    rcases hentries next hnext with ⟨hnextkey, hnexteq⟩ | ⟨hnextlt, hnextmem⟩
    · exact htracked.written entry hmem (seq, head) hhead (hnextkey.symm.trans hsucc) hnode
    · exact htracked.written entry hmem next hnextmem hsucc hnextnode

/-- A new entry stands behind the one it was recorded at, which says what it stands for if the settings
differ. -/
theorem Tracked.push (htracked : Tracked forms history value) {head entry : HistoryEntry}
    (hhead : (seq, head) ∈ history.entries) {after : State}
    (hown : ∀ given, entry.state = some given → given = forms.stateJson after)
    (hchange : (value seq).2 ≠ after → head.state.isSome ∧ entry.state.isSome)
    (hnode : entry.node.isSome → head.state.isSome) :
    Tracked forms (recordEntry history (seq + 1) entry)
      (Function.update value (seq + 1) (entry.snapshot, after)) := by
  have hentries : ∀ other ∈ (recordEntry history (seq + 1) entry).entries,
      other = (seq + 1, entry) ∨ other.1 ≤ seq ∧ other ∈ history.entries := by
    intro other hother
    exact (mem_recordEntry.mp hother).1.imp id And.symm
  have hvalue : ∀ {key : ℕ}, key ≤ seq →
      Function.update value (seq + 1) (entry.snapshot, after) key = value key :=
    fun hle ↦ Function.update_of_ne (Nat.ne_of_lt (Nat.lt_succ_of_le hle)) _ _
  refine ⟨⟨?_, ?_, ?_⟩, ?_, ?_⟩
  · intro low hlow high hhigh key hfrom hto
    obtain ⟨lower, hlower⟩ := SortedMap.mem_keys.mp hlow
    obtain ⟨higher, hhigher⟩ := SortedMap.mem_keys.mp hhigh
    have hkept : seq + 1 < key + workspaceHistoryDepth :=
      lt_of_lt_of_le (mem_recordEntry.mp hlower).2 (Nat.add_le_add_right hfrom _)
    rcases Nat.lt_or_ge seq key with hnew | hle
    · have hkey : key = seq + 1 := by
        have hhighest := recordEntry_le hhigher
        omega
      rw [hkey]
      exact SortedMap.mem_keys.mpr ⟨entry, SortedMap.get?_eq_some.mp (recordEntry_get? history seq entry)⟩
    · rcases hentries _ hlower with heq | ⟨-, hmem⟩
      · obtain ⟨rfl, -⟩ := Prod.mk.inj heq
        omega
      have hkey : key ∈ history.keys := htracked.stands.gapless low (SortedMap.mem_keys.mpr ⟨lower, hmem⟩)
        seq (SortedMap.mem_keys.mpr ⟨head, hhead⟩) key hfrom hle
      obtain ⟨found, hfound⟩ := SortedMap.mem_keys.mp hkey
      exact SortedMap.mem_keys.mpr ⟨found, mem_recordEntry.mpr ⟨Or.inr ⟨hfound, hle⟩, hkept⟩⟩
  · intro other hother given hgiven
    rcases hentries other hother with rfl | ⟨hle, hmem⟩
    · rw [Function.update_self]
      exact hown given hgiven
    · rw [hvalue hle]
      exact htracked.stands.own_eq other hmem given hgiven
  · intro first hfirst next hnext hsucc hdiffers
    rcases hentries first hfirst with rfl | ⟨hle, hmem⟩
    · rcases hentries next hnext with rfl | ⟨hnextle, -⟩ <;> omega
    rcases hentries next hnext with rfl | ⟨hnextle, hnextmem⟩
    · have hkey : first.1 = seq := (Nat.succ.inj hsucc).symm
      obtain rfl : first = (seq, head) := SortedMap.entries_inj hmem hhead hkey
      rw [hvalue le_rfl, Function.update_self] at hdiffers
      exact hchange fun hsame ↦ hdiffers (congrArg forms.stateJson hsame)
    · rw [hvalue hle, hvalue hnextle] at hdiffers
      exact htracked.stands.change first hmem next hnextmem hsucc hdiffers
  · intro other hother
    rcases hentries other hother with rfl | ⟨hle, hmem⟩
    · rw [Function.update_self]
    · rw [hvalue hle]
      exact htracked.snapshot other hmem
  · intro first hfirst next hnext hsucc hnextnode
    rcases hentries first hfirst with rfl | ⟨hle, hmem⟩
    · rcases hentries next hnext with rfl | ⟨hnextle, -⟩ <;> omega
    rcases hentries next hnext with rfl | ⟨hnextle, hnextmem⟩
    · have hkey : first.1 = seq := (Nat.succ.inj hsucc).symm
      obtain rfl : first = (seq, head) := SortedMap.entries_inj hmem hhead hkey
      exact hnode hnextnode
    · exact htracked.written first hmem next hnextmem hsucc hnextnode

/-! ## What a run keeps -/

/-- The entries of a workspace stand for what `value` says, and the one at the cursor for what is there. -/
structure Walked (forms : Forms Snapshot State) (live : Live State) (value : ℕ → String × State) :
    Prop where
  tracked : Tracked forms live.workspace.history value
  here : value live.place = live.shown
  pointed : live.workspace.historyAt ≠ 0 → live.workspace.historyAt ∈ live.workspace.history.keys
  first : live.workspace.historyAt = 0 → ∀ entry ∈ live.workspace.history.entries, entry.1 = 1
  positive : ∀ entry ∈ live.workspace.history.entries, entry.1 ≠ 0
  stored : Current forms live.workspace.snapshot
  current : ∀ entry ∈ live.workspace.history.entries, Current forms entry.2.snapshot

/-- A table holds no entry but those of a workspace, apart from the one at the cursor. -/
def Within (history : SortedMap ℕ HistoryEntry) (live : Live State) : Prop :=
  ∀ entry ∈ history.entries, entry.1 ∈ live.workspace.history.keys ∨ entry.1 = live.place

variable {live : Live State}

theorem Live.place_of_ne (hat : live.workspace.historyAt ≠ 0) : live.place = live.workspace.historyAt :=
  if_neg hat

theorem Live.place_of_eq (hat : live.workspace.historyAt = 0) : live.place = 1 := if_pos hat

theorem Live.place_ne_zero (live : Live State) : live.place ≠ 0 := by
  by_cases hat : live.workspace.historyAt = 0
  · rw [place_of_eq hat]
    exact Nat.one_ne_zero
  · rw [place_of_ne hat]
    exact hat

theorem recordBase_snd (live : Live State) (now : ℤ) : (recordBase live.workspace now).2 = live.place := by
  by_cases hat : live.workspace.historyAt = 0
  · rw [recordBase_of_eq hat, Live.place_of_eq hat]
  · rw [recordBase_of_ne hat, Live.place_of_ne hat]

/-- The table a record is measured against stands for the same, and has an entry at the cursor. -/
theorem Walked.base (hwalked : Walked forms live value) (now : ℤ) :
    Tracked forms (recordBase live.workspace now).1 value ∧
      live.place ∈ (recordBase live.workspace now).1.keys ∧
      Within (recordBase live.workspace now).1 live ∧
      ∀ entry ∈ (recordBase live.workspace now).1.entries, Current forms entry.2.snapshot := by
  by_cases hat : live.workspace.historyAt = 0
  · have hplace := Live.place_of_eq hat
    have hhere := hwalked.here
    rw [hplace] at hhere
    rw [recordBase_of_eq hat]
    refine ⟨tracked_first (congrArg Prod.fst hhere).symm, ?_, ?_, ?_⟩
    · rw [hplace]
      exact SortedMap.mem_keys.mpr ⟨_, SortedMap.mem_insert.mpr (Or.inl rfl)⟩
    · intro entry hentry
      right
      rw [SortedMap.mem_insert_empty.mp hentry, hplace]
    · intro entry hentry
      rw [SortedMap.mem_insert_empty.mp hentry]
      exact hwalked.stored
  · rw [recordBase_of_ne hat, Live.place_of_ne hat]
    refine ⟨hwalked.tracked, hwalked.pointed hat, ?_, hwalked.current⟩
    intro entry hentry
    exact Or.inl (SortedMap.mem_keys.mpr ⟨entry.2, hentry⟩)

/-- The settings a record is for: those in force before it, and `after` behind it. -/
def RecordsFrom (forms : Forms Snapshot State) (live : Live State) (after : State) :
    Option RecordedSettings → Prop
  | none => after = live.inForce
  | some change => change.before = forms.stateJson live.inForce ∧ change.after = forms.stateJson after

theorem Walked.start (hwalked : Walked forms live value) (now : ℤ) {after : State}
    {settings : Option RecordedSettings} (hsettings : RecordsFrom forms live after settings) :
    Tracked forms (recordStart live.workspace now settings) value ∧
      Within (recordStart live.workspace now settings) live ∧
      (∃ head, (live.place, head) ∈ (recordStart live.workspace now settings).entries ∧
        (settings.isSome → head.state.isSome)) ∧
      ∀ entry ∈ (recordStart live.workspace now settings).entries, Current forms entry.2.snapshot := by
  obtain ⟨hbase, hplace, hwithin, hcurrent⟩ := hwalked.base now
  have hhere : (value live.place).2 = live.inForce := congrArg Prod.snd hwalked.here
  have hkeys := recordBefore_keys (recordBase live.workspace now).1 live.place settings
  have hstart : recordStart live.workspace now settings =
      recordBefore (recordBase live.workspace now).1 live.place settings := by
    rw [recordStart, recordBase_snd]
  have htracked : Tracked forms (recordStart live.workspace now settings) value := by
    rw [hstart]
    apply hbase.before
    rintro change rfl
    rw [hhere]
    exact hsettings.1
  rw [← hstart] at hkeys
  refine ⟨htracked, ?_, ?_, ?_⟩
  · intro entry hentry
    have hkey : entry.1 ∈ (recordStart live.workspace now settings).keys :=
      SortedMap.mem_keys.mpr ⟨entry.2, hentry⟩
    rw [hkeys] at hkey
    obtain ⟨old, hold⟩ := SortedMap.mem_keys.mp hkey
    exact hwithin (entry.1, old) hold
  · rw [← hkeys] at hplace
    obtain ⟨head, hhead⟩ := SortedMap.mem_keys.mp hplace
    refine ⟨head, hhead, fun hsome ↦ ?_⟩
    obtain ⟨change, rfl⟩ := Option.isSome_iff_exists.mp hsome
    rw [hstart] at hhead
    obtain ⟨old, -, heq⟩ := SortedMap.exists_of_mem_adjust hhead
    rw [if_pos rfl] at heq
    have hstate : head.state = old.state.or (some change.before) := congrArg HistoryEntry.state heq
    rw [hstate]
    exact isSome_state_or
  · intro entry hentry
    rw [htracked.snapshot entry hentry]
    have hkey : entry.1 ∈ (recordStart live.workspace now settings).keys :=
      SortedMap.mem_keys.mpr ⟨entry.2, hentry⟩
    rw [hkeys] at hkey
    obtain ⟨old, hold⟩ := SortedMap.mem_keys.mp hkey
    rw [← hbase.snapshot (entry.1, old) hold]
    exact hcurrent (entry.1, old) hold

/-- From one state of a run to the next, the entries stand for the same but for the one at the cursor. -/
def Follows (live : Live State) (value : ℕ → String × State) (after : Live State)
    (newValue : ℕ → String × State) : Prop :=
  ∀ entry ∈ after.workspace.history.entries, entry.1 ≠ after.place →
    newValue entry.1 = value entry.1 ∧
      (entry.1 ∈ live.workspace.history.keys ∨ entry.1 = live.place)

/-- A record that leaves the cursor where it is. -/
theorem Walked.stay (hwalked : Walked forms live value) {newValue : ℕ → String × State}
    {table : SortedMap ℕ HistoryEntry} {after : Live State} (htracked : Tracked forms table newValue)
    (hwithin : Within table live) (hplace : live.place ∈ table.keys)
    (hcurrent : ∀ entry ∈ table.entries, Current forms entry.2.snapshot)
    (hhistory : after.workspace.history = table)
    (hhistoryAt : after.workspace.historyAt = live.workspace.historyAt)
    (hhere : newValue live.place = after.shown) (hstored : Current forms after.workspace.snapshot) :
    Walked forms after newValue := by
  have hsame : after.place = live.place := by rw [Live.place, hhistoryAt, Live.place]
  refine ⟨?_, ?_, fun hat ↦ ?_, fun hat ↦ ?_, ?_, hstored, ?_⟩
  · rw [hhistory]
    exact htracked
  · rw [hsame]
    exact hhere
  · rw [hhistory, ← Live.place_of_ne hat, hsame]
    exact hplace
  · rw [hhistory]
    rw [hhistoryAt] at hat
    intro entry hentry
    rcases hwithin entry hentry with hkey | hkey
    · obtain ⟨old, hold⟩ := SortedMap.mem_keys.mp hkey
      exact hwalked.first hat (entry.1, old) hold
    · rw [hkey, Live.place_of_eq hat]
  · rw [hhistory]
    intro entry hentry
    rcases hwithin entry hentry with hkey | hkey
    · obtain ⟨old, hold⟩ := SortedMap.mem_keys.mp hkey
      exact hwalked.positive (entry.1, old) hold
    · rw [hkey]
      exact live.place_ne_zero
  · rw [hhistory]
    exact hcurrent

section Record

variable {now : ℤ} {json : String} {settings : Option RecordedSettings} {after : Live State}

theorem Walked.record_nothing (hfaithful : Faithful forms) (hwalked : Walked forms live value)
    (hsettings : RecordsFrom forms live after.inForce settings)
    (hnothing : recordsNothing (recordStart live.workspace now settings) live.place json settings = true)
    (hhistory : after.workspace.history = recordStart live.workspace now settings)
    (hhistoryAt : after.workspace.historyAt = live.workspace.historyAt)
    (hsnapshot : after.workspace.snapshot = json) (hjson : Current forms json) :
    ∃ newValue, Walked forms after newValue ∧ Follows live value after newValue := by
  obtain ⟨htracked, hwithin, -, hcurrent⟩ := hwalked.start now hsettings
  obtain ⟨head, hhead, hheadJson, hstate⟩ := recordsNothing_iff.mp hnothing
  rw [SortedMap.get?_eq_some] at hhead
  have hplace : live.place ∈ (recordStart live.workspace now settings).keys :=
    SortedMap.mem_keys.mpr ⟨head, hhead⟩
  have hstored : (value live.place).1 = json := by
    rw [← htracked.snapshot (live.place, head) hhead]
    exact hheadJson
  have hinForce : (value live.place).2 = after.inForce := by
    cases settings with
    | none => exact (congrArg Prod.snd hwalked.here).trans hsettings.symm
    | some change =>
      have hread := htracked.stands.held_eq hplace (hstate change rfl)
      exact (hfaithful.stateJson_inj (hsettings.2.symm.trans hread)).symm
  refine ⟨value, hwalked.stay htracked hwithin hplace hcurrent hhistory hhistoryAt ?_ ?_, ?_⟩
  · exact Prod.ext (hstored.trans hsnapshot.symm) hinForce
  · rw [hsnapshot]
    exact hjson
  · intro entry hentry _
    rw [hhistory] at hentry
    exact ⟨rfl, hwithin entry hentry⟩

theorem Walked.record_coalesced (hwalked : Walked forms live value) {change : RecordedSettings}
    (hsettings : RecordsFrom forms live after.inForce (some change))
    (hcoalesces : recordCoalesces (recordStart live.workspace now (some change)) live.place now json
      change = true)
    (hlast : ∀ entry ∈ (recordStart live.workspace now (some change)).entries, entry.1 ≤ live.place)
    (hhistory : after.workspace.history =
      (recordStart live.workspace now (some change)).adjust live.place fun entry ↦
        { entry with state := some change.after, createdAt := now })
    (hhistoryAt : after.workspace.historyAt = live.workspace.historyAt)
    (hsnapshot : after.workspace.snapshot = json) (hjson : Current forms json) :
    ∃ newValue, Walked forms after newValue ∧ Follows live value after newValue := by
  obtain ⟨htracked, hwithin, -, hcurrent⟩ := hwalked.start now hsettings
  obtain ⟨head, hhead, hnode, hheadJson, -⟩ := recordCoalesces_iff.mp hcoalesces
  rw [SortedMap.get?_eq_some] at hhead
  have hplace : live.place ∈ (recordStart live.workspace now (some change)).keys :=
    SortedMap.mem_keys.mpr ⟨head, hhead⟩
  have hstored : (value live.place).1 = json := by
    rw [← htracked.snapshot (live.place, head) hhead]
    exact hheadJson
  have hsame : after.place = live.place := by rw [Live.place, hhistoryAt, Live.place]
  have hamended := htracked.amend hlast hhead (Option.isSome_iff_exists.mpr ⟨_, hnode⟩) after.inForce now
  rw [← hsettings.2, ← hhistory] at hamended
  refine ⟨_, hwalked.stay hamended ?_ ?_ ?_ rfl hhistoryAt ?_ ?_, ?_⟩
  · intro entry hentry
    rw [hhistory] at hentry
    obtain ⟨old, hold, -⟩ := SortedMap.exists_of_mem_adjust hentry
    exact hwithin (entry.1, old) hold
  · rw [hhistory, SortedMap.adjust_keys]
    exact hplace
  · intro entry hentry
    rw [hhistory] at hentry
    obtain ⟨old, hold, heq⟩ := SortedMap.exists_of_mem_adjust hentry
    have hkept : entry.2.snapshot = old.snapshot := by
      rw [heq]
      split_ifs <;> rfl
    rw [hkept]
    exact hcurrent (entry.1, old) hold
  · rw [Function.update_self]
    exact Prod.ext (hstored.trans hsnapshot.symm) rfl
  · rw [hsnapshot]
    exact hjson
  · intro entry hentry hne
    rw [hhistory] at hentry
    obtain ⟨old, hold, -⟩ := SortedMap.exists_of_mem_adjust hentry
    rw [hsame] at hne
    exact ⟨Function.update_of_ne hne _ _, hwithin (entry.1, old) hold⟩

theorem Walked.record_entry (hwalked : Walked forms live value)
    (hsettings : RecordsFrom forms live after.inForce settings)
    (hhistory : after.workspace.history =
      recordEntry (recordStart live.workspace now settings) (live.place + 1)
        { createdAt := now, snapshot := json, state := settings.map RecordedSettings.after,
          node := settings.map RecordedSettings.node })
    (hhistoryAt : after.workspace.historyAt = live.place + 1)
    (hsnapshot : after.workspace.snapshot = json) (hjson : Current forms json) :
    ∃ newValue, Walked forms after newValue ∧ Follows live value after newValue := by
  obtain ⟨htracked, hwithin, ⟨head, hhead, hwritten⟩, hcurrent⟩ := hwalked.start now hsettings
  have hnonzero : after.workspace.historyAt ≠ 0 := by
    rw [hhistoryAt]
    exact Nat.succ_ne_zero _
  have hplace : after.place = live.place + 1 := (Live.place_of_ne hnonzero).trans hhistoryAt
  have hbefore : (value live.place).2 = live.inForce := congrArg Prod.snd hwalked.here
  have hpushed : Tracked forms after.workspace.history
      (Function.update value (live.place + 1) (json, after.inForce)) := by
    rw [hhistory]
    apply htracked.push hhead
    · intro given hgiven
      obtain ⟨change, rfl, rfl⟩ := Option.map_eq_some_iff.mp hgiven
      exact hsettings.2
    · intro hdiffers
      cases settings with
      | none => exact absurd (hbefore.trans hsettings.symm) hdiffers
      | some change => exact ⟨hwritten rfl, rfl⟩
    · intro hnode
      rw [Option.isSome_map] at hnode
      exact hwritten hnode
  refine ⟨_, ⟨hpushed, ?_, fun _ ↦ ?_, fun hat ↦ absurd hat hnonzero, ?_, ?_, ?_⟩, ?_⟩
  · rw [hplace, Function.update_self]
    exact Prod.ext hsnapshot.symm rfl
  · rw [hhistoryAt, hhistory]
    exact SortedMap.mem_keys.mpr ⟨_, SortedMap.get?_eq_some.mp (recordEntry_get? _ _ _)⟩
  · intro entry hentry
    rw [hhistory] at hentry
    rcases (mem_recordEntry.mp hentry).1 with rfl | ⟨hmem, -⟩
    · exact Nat.succ_ne_zero _
    · rcases hwithin entry hmem with hkey | hkey
      · obtain ⟨old, hold⟩ := SortedMap.mem_keys.mp hkey
        exact hwalked.positive (entry.1, old) hold
      · rw [hkey]
        exact live.place_ne_zero
  · rw [hsnapshot]
    exact hjson
  · intro entry hentry
    rw [hhistory] at hentry
    rcases (mem_recordEntry.mp hentry).1 with rfl | ⟨hmem, -⟩
    · exact hjson
    · exact hcurrent entry hmem
  · intro entry hentry hne
    rw [hhistory] at hentry
    rw [hplace] at hne
    rcases (mem_recordEntry.mp hentry).1 with rfl | ⟨hmem, -⟩
    · exact absurd rfl hne
    · exact ⟨Function.update_of_ne hne _ _, hwithin entry hmem⟩

/-- A record keeps what the entries stand for, whatever its end. -/
theorem Walked.record (hfaithful : Faithful forms) (hwalked : Walked forms live value)
    {result : Bool × Workspace} (hrecords : Records live.workspace now json settings result)
    (hsettings : RecordsFrom forms live after.inForce settings) (hjson : Current forms json)
    (hlast : ∀ change, settings = some change →
      recordsNothing (recordStart live.workspace now settings) live.place json settings = false →
      recordCoalesces (recordStart live.workspace now settings) live.place now json change = true →
      ∀ entry ∈ (recordStart live.workspace now settings).entries, entry.1 ≤ live.place)
    (hhistory : after.workspace.history = result.2.history)
    (hhistoryAt : after.workspace.historyAt = result.2.historyAt)
    (hsnapshot : after.workspace.snapshot = json) :
    ∃ newValue, Walked forms after newValue ∧ Follows live value after newValue := by
  have hbase := recordBase_snd live now
  cases hrecords with
  | nothing hnothing =>
    rw [hbase] at hnothing
    exact hwalked.record_nothing hfaithful hsettings hnothing hhistory hhistoryAt hsnapshot hjson
  | coalesced change hchange hnothing hcoalesces =>
    subst hchange
    rw [hbase] at hnothing hcoalesces hhistory
    exact hwalked.record_coalesced hsettings hcoalesces (hlast change rfl hnothing hcoalesces) hhistory
      hhistoryAt hsnapshot hjson
  | entry hnothing hcoalesces =>
    rw [hbase] at hhistory hhistoryAt
    exact hwalked.record_entry hsettings hhistory hhistoryAt hsnapshot hjson

end Record

/-! ## Calls -/

theorem Walked.unchanged (hwalked : Walked forms live value) {after : Live State}
    (hhistory : after.workspace.history = live.workspace.history)
    (hhistoryAt : after.workspace.historyAt = live.workspace.historyAt)
    (hshown : after.shown = live.shown) :
    ∃ newValue, Walked forms after newValue ∧ Follows live value after newValue := by
  have hplace : after.place = live.place := by rw [Live.place, hhistoryAt, Live.place]
  have hsnapshot : after.workspace.snapshot = live.workspace.snapshot := congrArg Prod.fst hshown
  refine ⟨value, ⟨?_, ?_, ?_, ?_, ?_, ?_, ?_⟩, ?_⟩
  · rw [hhistory]
    exact hwalked.tracked
  · rw [hplace, hshown]
    exact hwalked.here
  · rw [hhistory, hhistoryAt]
    exact hwalked.pointed
  · rw [hhistory, hhistoryAt]
    exact hwalked.first
  · rw [hhistory]
    exact hwalked.positive
  · rw [hsnapshot]
    exact hwalked.stored
  · rw [hhistory]
    exact hwalked.current
  · intro entry hentry _
    rw [hhistory] at hentry
    exact ⟨rfl, Or.inl (SortedMap.mem_keys.mpr ⟨entry.2, hentry⟩)⟩

theorem Walked.next_update (hfaithful : Faithful forms) (hwalked : Walked forms live value)
    (request : UpdateWorkspaceRequest Snapshot) (now recordedAt : ℤ) :
    ∃ newValue, Walked forms (live.next forms (.update request now recordedAt)) newValue ∧
      Follows live value (live.next forms (.update request now recordedAt)) newValue := by
  have hinForce : (live.next forms (.update request now recordedAt)).inForce = live.inForce := rfl
  have hworkspace : (live.next forms (.update request now recordedAt)).workspace =
    ((Call.update request now recordedAt).perform forms live.workspace).2 := rfl
  rcases perform_update forms live.workspace request now recordedAt with hsame | ⟨info, after, hok, hafter⟩
  · rw [hsame] at hworkspace
    apply hwalked.unchanged
    · rw [hworkspace]
    · rw [hworkspace]
    · exact Prod.ext (congrArg Workspace.snapshot hworkspace) hinForce
  rw [hafter] at hworkspace
  obtain ⟨name, state, revision, ⟨-, rfl⟩ | ⟨snapshot, -, hvalid, rfl⟩⟩ := updateWorkspace_eq_ok hok
  · apply hwalked.unchanged
    · rw [hworkspace]
    · rw [hworkspace]
    · refine Prod.ext ?_ hinForce
      rw [Live.shown, hworkspace]
      rfl
  · let renamed : Live State := { live with workspace := { live.workspace with name, state } }
    have hrenamed : Walked forms renamed value :=
      ⟨hwalked.tracked, hwalked.here, hwalked.pointed, hwalked.first, hwalked.positive, hwalked.stored,
        hwalked.current⟩
    have hjson : Current forms (forms.snapshotJson snapshot) :=
      ⟨snapshot, hfaithful.snapshot snapshot hvalid, rfl⟩
    have hrecords := recordHistory_records renamed.workspace recordedAt (forms.snapshotJson snapshot) none
    obtain ⟨newValue, hnew, hfollows⟩ : ∃ newValue,
        Walked forms (live.next forms (.update request now recordedAt)) newValue ∧
          Follows renamed value (live.next forms (.update request now recordedAt)) newValue := by
      apply hrenamed.record hfaithful hrecords hinForce hjson
      · intro change hchange
        cases hchange
      · rw [hworkspace]
      · rw [hworkspace]
      · rw [hworkspace]
    exact ⟨newValue, hnew, hfollows⟩

theorem Walked.next_settings (hfaithful : Faithful forms) (hwalked : Walked forms live value)
    {change : SettingsStep State} {now : ℤ} (hproper : Proper forms live (.settings change now)) :
    ∃ newValue, Walked forms (live.next forms (.settings change now)) newValue ∧
      Follows live value (live.next forms (.settings change now)) newValue := by
  have hrecords := recordHistory_records live.workspace now live.workspace.snapshot
    (some (recordedSettings forms change))
  refine hwalked.record hfaithful hrecords ⟨congrArg forms.stateJson hproper.1, rfl⟩ hwalked.stored ?_ rfl
    rfl hrecords.snapshot_eq
  intro again hagain hnothing hcoalesces
  obtain rfl := Option.some.inj hagain
  have hchanges : Changes forms live.workspace (.settings change now) := by
    intro hstate
    rw [recordBase_snd] at hstate
    obtain ⟨head, hhead, -, hsnapshot, -⟩ := recordCoalesces_iff.mp hcoalesces
    have hsame : recordsNothing (recordStart live.workspace now (some (recordedSettings forms change)))
        live.place live.workspace.snapshot (some (recordedSettings forms change)) = true := by
      refine recordsNothing_iff.mpr ⟨head, hhead, hsnapshot, ?_⟩
      rintro _ ⟨⟩
      exact hstate
    exact Bool.noConfusion (hsame.symm.trans hnothing)
  rw [← recordBase_snd live now] at hcoalesces ⊢
  have hat := recordCoalesces_ne_zero hcoalesces
  rw [recordStart, recordBase_of_ne hat, recordCoalesces_recordBefore] at hcoalesces
  rw [recordStart, forall_entries_iff, recordBefore_keys, recordBase_of_ne hat, ← forall_entries_iff]
  intro entry hentry
  by_contra hlt
  exact hproper.2 ⟨hchanges, hcoalesces, hat, entry, hentry, not_le.mp hlt⟩

/-- The settings a step answers are those of the entry it reaches. -/
theorem Walked.stepSettings_eq (hfaithful : Faithful forms) (hwalked : Walked forms live value)
    {target : ℕ × HistoryEntry} (htarget : target ∈ live.workspace.history.entries)
    {settings : Option State}
    (hsettings : stepSettings forms live.workspace.history live.workspace.historyAt target.1 =
      Except.ok settings) : settings.getD live.inForce = (value target.1).2 := by
  have hkey : target.1 ∈ live.workspace.history.keys := SortedMap.mem_keys.mpr ⟨target.2, htarget⟩
  have hhere : (value live.place).2 = live.inForce := congrArg Prod.snd hwalked.here
  have hpointed : live.workspace.historyAt ≠ 0 → live.place ∈ live.workspace.history.keys := by
    intro hat
    rw [Live.place_of_ne hat]
    exact hwalked.pointed hat
  -- Before the first edit the only entry stands for what is there.
  have hfirst : live.workspace.historyAt = 0 → target.1 = live.place := by
    intro hat
    rw [hwalked.first hat target htarget, Live.place_of_eq hat]
  rw [← hhere]
  unfold stepSettings at hsettings
  dsimp only at hsettings
  cases hreaching : stateAt live.workspace.history target.1 with
  | none =>
    rw [hreaching] at hsettings
    obtain rfl := Except.ok.inj hsettings
    by_cases hat : live.workspace.historyAt = 0
    · rw [hfirst hat]
      rfl
    · exact hfaithful.stateJson_inj
        (hwalked.tracked.stands.value_eq_of_none hreaching (hpointed hat) hkey)
  | some reaching =>
    have hread := hwalked.tracked.stands.held_eq hkey hreaching
    rw [hreaching] at hsettings
    dsimp only at hsettings
    split_ifs at hsettings with hleaving
    · obtain rfl := Except.ok.inj hsettings
      by_cases hat : live.workspace.historyAt = 0
      · rw [hfirst hat]
        rfl
      · rw [← Live.place_of_ne hat] at hleaving
        have hleft := hwalked.tracked.stands.held_eq (hpointed hat) hleaving.symm
        exact hfaithful.stateJson_inj (hleft.symm.trans hread)
    · obtain ⟨state, hstate, rfl⟩ := map_eq_ok.mp hsettings
      rw [parseState_eq_ok, hread, hfaithful.state] at hstate
      exact (Option.some.inj hstate).symm

/-- A step reaches what the entry it finds stands for. -/
theorem Walked.step (hfaithful : Faithful forms) (hwalked : Walked forms live value) {step : Step}
    {now : ℤ} {reached : SteppedWorkspace Snapshot State} {after : Workspace}
    (hok : stepHistory forms live.workspace step now = Except.ok (reached, after)) :
    ∃ entry, step.query live.workspace.history live.workspace.historyAt = some (after.historyAt, entry) ∧
      after.snapshot = entry.snapshot ∧ after.history = live.workspace.history ∧ after.historyAt ≠ 0 ∧
      (after.snapshot, reached.settings.getD live.inForce) = value after.historyAt := by
  obtain ⟨seq, entry, snapshot, settings, hquery, hsnapshot, hsettings, -, hreached, rfl⟩ :=
    stepHistory_eq_ok hok
  have hmem : (seq, entry) ∈ live.workspace.history.entries := step.query_mem hquery
  obtain ⟨read, hread, hjson⟩ := hwalked.current (seq, entry) hmem
  obtain rfl : read = snapshot := Option.some.inj (hread.symm.trans hsnapshot)
  have hhistory : ((settings.map (writeWorkspaceState forms live.workspace)).getD live.workspace).history =
      live.workspace.history := by
    cases settings <;> rfl
  refine ⟨entry, hquery, hjson, hhistory, hwalked.positive (seq, entry) hmem, ?_⟩
  apply Prod.ext
  · exact hjson.trans (hwalked.tracked.snapshot (seq, entry) hmem)
  · rw [hreached]
    exact hwalked.stepSettings_eq hfaithful hmem hsettings

theorem Live.next_step_of_ok {step : Step} {now : ℤ} {reached : SteppedWorkspace Snapshot State}
    {after : Workspace} (hok : stepHistory forms live.workspace step now = Except.ok (reached, after)) :
    live.next forms (.step step now) =
      { workspace := after, inForce := reached.settings.getD live.inForce } := by
  rcases perform_step forms live.workspace step now with ⟨err, herr, -⟩ | ⟨found, other, hfound, hperform⟩
  · cases herr.symm.trans hok
  · obtain ⟨rfl, rfl⟩ := Prod.mk.inj (Except.ok.inj (hfound.symm.trans hok))
    unfold next
    simp only [hperform]

theorem Live.next_step_of_error {step : Step} {now : ℤ} {err : StoreError}
    (herror : stepHistory forms live.workspace step now = Except.error err) :
    (Call.step step now).perform forms live.workspace = (Except.error err, live.workspace) ∧
      live.next forms (.step step now) = live := by
  rcases perform_step forms live.workspace step now with ⟨other, hother, hperform⟩ | ⟨found, _, hfound, -⟩
  · obtain rfl := Except.error.inj (hother.symm.trans herror)
    refine ⟨hperform, ?_⟩
    unfold next
    simp only [hperform]
  · cases hfound.symm.trans herror

theorem Walked.next_step (hfaithful : Faithful forms) (hwalked : Walked forms live value) (step : Step)
    (now : ℤ) :
    ∃ newValue, Walked forms (live.next forms (.step step now)) newValue ∧
      Follows live value (live.next forms (.step step now)) newValue := by
  cases hstep : stepHistory forms live.workspace step now with
  | error err =>
    rw [(Live.next_step_of_error hstep).2]
    exact hwalked.unchanged rfl rfl rfl
  | ok result =>
    obtain ⟨entry, hquery, hsnapshot, hhistory, hnonzero, hvalue⟩ := hwalked.step hfaithful hstep
    rw [Live.next_step_of_ok hstep]
    have hmem := step.query_mem hquery
    refine ⟨value, ⟨?_, ?_, ?_, ?_, ?_, ?_, ?_⟩, ?_⟩
    · rw [hhistory]
      exact hwalked.tracked
    · rw [Live.place_of_ne hnonzero]
      exact hvalue.symm
    · intro _
      rw [hhistory]
      exact SortedMap.mem_keys.mpr ⟨entry, hmem⟩
    · exact fun hat ↦ absurd hat hnonzero
    · rw [hhistory]
      exact hwalked.positive
    · rw [hsnapshot]
      exact hwalked.current _ hmem
    · rw [hhistory]
      exact hwalked.current
    · intro other hother _
      rw [hhistory] at hother
      exact ⟨rfl, Or.inl (SortedMap.mem_keys.mpr ⟨other.2, hother⟩)⟩

theorem Walked.next (hfaithful : Faithful forms) (hwalked : Walked forms live value)
    {call : Call Snapshot State} (hproper : Proper forms live call) :
    ∃ newValue, Walked forms (live.next forms call) newValue ∧
      Follows live value (live.next forms call) newValue := by
  cases call with
  | update request now recordedAt => exact hwalked.next_update hfaithful request now recordedAt
  | settings change now => exact hwalked.next_settings hfaithful hproper
  | step which now => exact hwalked.next_step hfaithful which now

/-! ## Runs -/

theorem Live.walk_append (live : Live State) (calls : List (Call Snapshot State))
    (call : Call Snapshot State) :
    live.walk forms (calls ++ [call]) = (live.walk forms calls).next forms call := List.foldl_append

theorem Live.lastCurrent_append (live : Live State) (calls : List (Call Snapshot State))
    (call : Call Snapshot State) (seq : ℕ) :
    live.lastCurrent forms (calls ++ [call]) seq =
      (if (live.walk forms (calls ++ [call])).place = seq then
        some (live.walk forms (calls ++ [call])) else none).or (live.lastCurrent forms calls seq) := by
  induction calls generalizing live with
  | nil => rfl
  | cons first rest ih =>
    rw [List.cons_append, lastCurrent, ih, lastCurrent, Option.or_assoc]
    rfl

theorem Fresh.walked {start : Live State} (hfresh : Fresh start.workspace)
    (hcurrent : Current forms start.workspace.snapshot) :
    Walked forms start fun _ ↦ start.shown := by
  have hnone (entry : ℕ × HistoryEntry) : entry ∉ start.workspace.history.entries := by
    rw [hfresh.history]
    exact List.not_mem_nil
  have hkeys (key : ℕ) : key ∉ start.workspace.history.keys := by
    intro hkey
    obtain ⟨entry, hentry⟩ := SortedMap.mem_keys.mp hkey
    exact hnone _ hentry
  exact
    { tracked :=
        { stands :=
            { gapless := fun low hlow ↦ absurd hlow (hkeys low)
              own_eq := fun entry hentry ↦ absurd hentry (hnone entry)
              change := fun entry hentry ↦ absurd hentry (hnone entry) }
          snapshot := fun entry hentry ↦ absurd hentry (hnone entry)
          written := fun entry hentry ↦ absurd hentry (hnone entry) }
      here := rfl
      pointed := fun hat ↦ absurd hfresh.historyAt hat
      first := fun _ entry hentry ↦ absurd hentry (hnone entry)
      positive := fun entry hentry ↦ absurd hentry (hnone entry)
      stored := hcurrent
      current := fun entry hentry ↦ absurd hentry (hnone entry) }

/-- Every entry of a table stands for what was there when it was last at the cursor. -/
theorem walked_walk (hfaithful : Faithful forms) {start : Live State} (hfresh : Fresh start.workspace)
    (hcurrent : Current forms start.workspace.snapshot) (calls : List (Call Snapshot State))
    (hproper : ∀ front call back, calls = front ++ call :: back →
      Proper forms (start.walk forms front) call) :
    ∃ value, Walked forms (start.walk forms calls) value ∧
      ∀ seq, seq ∈ (start.walk forms calls).workspace.history.keys ∨
          seq = (start.walk forms calls).place →
        (start.lastCurrent forms calls seq).map Live.shown = some (value seq) := by
  induction calls using List.reverseRecOn with
  | nil =>
    refine ⟨_, hfresh.walked hcurrent, fun seq hseq ↦ ?_⟩
    rcases hseq with hkey | rfl
    · obtain ⟨entry, hentry⟩ := SortedMap.mem_keys.mp hkey
      rw [Live.walk, List.foldl_nil, hfresh.history] at hentry
      exact absurd hentry List.not_mem_nil
    · rw [Live.lastCurrent, Live.walk, List.foldl_nil, if_pos rfl, Option.map_some]
  | append_singleton calls call ih =>
    obtain ⟨value, hwalked, hseen⟩ := ih fun front other back hcalls ↦
      hproper front other (back ++ [call]) (by rw [hcalls, List.append_assoc, List.cons_append])
    obtain ⟨newValue, hnew, hfollows⟩ := hwalked.next hfaithful (hproper calls call [] rfl)
    rw [← Live.walk_append] at hnew hfollows
    refine ⟨newValue, hnew, fun seq hseq ↦ ?_⟩
    rw [Live.lastCurrent_append]
    by_cases hplace : (start.walk forms (calls ++ [call])).place = seq
    · rw [if_pos hplace, Option.some_or, Option.map_some, ← hplace, hnew.here]
    · have hkey := hseq.resolve_right (Ne.symm hplace)
      obtain ⟨entry, hentry⟩ := SortedMap.mem_keys.mp hkey
      obtain ⟨hsame, hbefore⟩ := hfollows (seq, entry) hentry (Ne.symm hplace)
      rw [if_neg hplace, Option.none_or, hseen seq hbefore, hsame]

/-! ## Undo and redo -/

/-- The entry a step is to reach: the nearest one on its side of the cursor. -/
def Neighbour (history : SortedMap ℕ HistoryEntry) (historyAt : ℕ) (target : ℕ × HistoryEntry) :
    Step → Prop
  | .undo => target ∈ history.entries ∧ target.1 < historyAt ∧
      ∀ other ∈ history.entries, other.1 < historyAt → other.1 ≤ target.1
  | .redo => target ∈ history.entries ∧ historyAt < target.1 ∧
      ∀ other ∈ history.entries, historyAt < other.1 → target.1 ≤ other.1

theorem query_eq_some {step : Step} {history : SortedMap ℕ HistoryEntry} {historyAt : ℕ}
    {target : ℕ × HistoryEntry} :
    step.query history historyAt = some target ↔ Neighbour history historyAt target step := by
  cases step with
  | undo => simp only [Step.query, SortedMap.findRev?_eq_some, decide_eq_true_iff, Neighbour]
  | redo => simp only [Step.query, SortedMap.find?_eq_some, decide_eq_true_iff, Neighbour]

/-- What undo and redo do at the end of a run. -/
structure WalksBack (forms : Forms Snapshot State) (start : Live State)
    (calls : List (Call Snapshot State)) : Prop where
  /-- A step moves to the neighbouring entry and brings back its arrangement, and what the operator saw when
  the entry was last at the cursor. -/
  reaches : ∀ step now reached after,
    stepHistory forms (start.walk forms calls).workspace step now = Except.ok (reached, after) →
    ∃ entry past,
      Neighbour (start.walk forms calls).workspace.history (start.walk forms calls).workspace.historyAt
        (after.historyAt, entry) step ∧
      after.snapshot = entry.snapshot ∧
      start.lastCurrent forms calls after.historyAt = some past ∧
      (start.walk forms (calls ++ [.step step now])).workspace = after ∧
      (start.walk forms (calls ++ [.step step now])).shown = past.shown
  /-- After an undo there is a redo, and it restores what there was. -/
  restores : ∀ now reached after,
    undoWorkspace forms (start.walk forms calls).workspace now = Except.ok (reached, after) →
    ∀ again, ∃ redone last, redoWorkspace forms after again = Except.ok (redone, last) ∧
      (start.walk forms (calls ++ [.step .undo now, .step .redo again])).workspace = last ∧
      (start.walk forms (calls ++ [.step .undo now, .step .redo again])).shown =
        (start.walk forms calls).shown ∧
      readHistory last = readHistory (start.walk forms calls).workspace
  /-- A step that fails changes nothing. -/
  fails : ∀ step now err,
    stepHistory forms (start.walk forms calls).workspace step now = Except.error err →
    (Call.step step now).perform forms (start.walk forms calls).workspace =
        (Except.error err, (start.walk forms calls).workspace) ∧
      start.walk forms (calls ++ [.step step now]) = start.walk forms calls

theorem Walked.stepSettings_ok (hfaithful : Faithful forms) (hwalked : Walked forms live value)
    {target : ℕ × HistoryEntry} (htarget : target ∈ live.workspace.history.entries) :
    ∃ settings, stepSettings forms live.workspace.history live.workspace.historyAt target.1 =
      Except.ok settings := by
  unfold stepSettings
  dsimp only
  cases hreaching : stateAt live.workspace.history target.1 with
  | none => exact ⟨none, rfl⟩
  | some reaching =>
    dsimp only
    split_ifs
    · exact ⟨none, rfl⟩
    · have hread := hwalked.tracked.stands.held_eq (SortedMap.mem_keys.mpr ⟨target.2, htarget⟩) hreaching
      have hparse : parseState forms reaching = Except.ok (value target.1).2 := by
        rw [parseState_eq_ok, hread]
        exact hfaithful.state _
      rw [hparse]
      exact ⟨some (value target.1).2, rfl⟩

/-- A step whose query finds an entry succeeds where the settings of the workspace can be read. -/
theorem Walked.step_ok (hfaithful : Faithful forms) (hwalked : Walked forms live value) {step : Step}
    {target : ℕ × HistoryEntry}
    (hquery : step.query live.workspace.history live.workspace.historyAt = some target) {state : State}
    (hstate : readWorkspaceState forms live.workspace = Except.ok state) (now : ℤ) :
    ∃ reached after, stepHistory forms live.workspace step now = Except.ok (reached, after) := by
  have htarget := step.query_mem hquery
  obtain ⟨snapshot, hparse, hjson⟩ := hwalked.current target htarget
  obtain ⟨settings, hsettings⟩ := hwalked.stepSettings_ok hfaithful htarget
  have hsnapshot : parseSnapshot forms target.2.snapshot = Except.ok snapshot := parseSnapshot_eq_ok.mpr hparse
  have hagain : parseSnapshot forms (forms.snapshotJson snapshot) = Except.ok snapshot := by
    rw [hjson]
    exact hsnapshot
  have hkept : ∃ kept, readWorkspaceState forms
      ((settings.map (writeWorkspaceState forms live.workspace)).getD live.workspace) = Except.ok kept := by
    cases settings with
    | none => exact ⟨state, hstate⟩
    | some given => exact ⟨given, parseState_eq_ok.mpr (hfaithful.state given)⟩
  obtain ⟨kept, hkept⟩ := hkept
  unfold stepHistory
  rw [hquery]
  exact ⟨_, _, bind_eq_ok.mpr ⟨snapshot, hsnapshot, bind_eq_ok.mpr ⟨settings, hsettings,
    bind_eq_ok.mpr ⟨_, bind_eq_ok.mpr ⟨snapshot, hagain, bind_eq_ok.mpr ⟨kept, hkept, rfl⟩⟩, rfl⟩⟩⟩⟩

/-- From the entry behind the cursor, the entry at the cursor is the one ahead. -/
theorem Neighbour.redo {history : SortedMap ℕ HistoryEntry} {historyAt : ℕ} {target here : ℕ × HistoryEntry}
    (hundo : Neighbour history historyAt target .undo) (hhere : here ∈ history.entries)
    (hat : here.1 = historyAt) : Neighbour history target.1 here .redo := by
  obtain ⟨-, hlt, hlast⟩ := hundo
  refine ⟨hhere, hat ▸ hlt, fun other hother hafter ↦ ?_⟩
  rw [hat]
  by_contra hbefore
  exact absurd (hlast other hother (not_le.mp hbefore)) (not_le.mpr hafter)

theorem readWorkspaceState_of_stepHistory {workspace after : Workspace} {step : Step} {now : ℤ}
    {reached : SteppedWorkspace Snapshot State}
    (hok : stepHistory forms workspace step now = Except.ok (reached, after)) :
    ∃ state, readWorkspaceState forms after = Except.ok state := by
  obtain ⟨_, _, _, _, -, -, -, hread, -, -⟩ := stepHistory_eq_ok hok
  obtain ⟨_, -, hread⟩ := bind_eq_ok.mp hread
  obtain ⟨state, hstate, -⟩ := bind_eq_ok.mp hread
  exact ⟨state, hstate⟩

/-- A redo right after an undo is back where the undo was made. -/
theorem Walked.redo_undo (hfaithful : Faithful forms) (hwalked : Walked forms live value) {now : ℤ}
    {reached : SteppedWorkspace Snapshot State} {after : Workspace}
    (hundo : undoWorkspace forms live.workspace now = Except.ok (reached, after)) (again : ℤ) :
    ∃ redone last, redoWorkspace forms after again = Except.ok (redone, last) ∧
      ((live.next forms (.step .undo now)).next forms (.step .redo again)).workspace = last ∧
      ((live.next forms (.step .undo now)).next forms (.step .redo again)).shown = live.shown ∧
      readHistory last = readHistory live.workspace := by
  obtain ⟨entry, hquery, hsnapshot, hhistory, hnonzero, hvalue⟩ := hwalked.step hfaithful hundo
  obtain ⟨newValue, hundone, hfollows⟩ := hwalked.next_step hfaithful .undo now
  rw [Live.next_step_of_ok hundo] at hundone hfollows ⊢
  have hback := query_eq_some.mp hquery
  have hat : live.workspace.historyAt ≠ 0 := Nat.ne_of_gt (Nat.zero_lt_of_lt hback.2.1)
  obtain ⟨here, hhere⟩ := SortedMap.mem_keys.mp (hwalked.pointed hat)
  have hforward : Step.redo.query after.history after.historyAt = some (live.workspace.historyAt, here) := by
    rw [hhistory]
    exact query_eq_some.mpr (hback.redo hhere rfl)
  obtain ⟨state, hstate⟩ := readWorkspaceState_of_stepHistory hundo
  obtain ⟨redone, last, hredo⟩ := hundone.step_ok hfaithful hforward hstate again
  obtain ⟨_, hfound, -, hlast, -, hlastValue⟩ := hundone.step hfaithful hredo
  obtain ⟨hlastAt, -⟩ := Prod.mk.inj (Option.some.inj (hfound.symm.trans hforward))
  have hplace : (live.workspace.historyAt, here).1 ≠ after.historyAt := Nat.ne_of_gt hback.2.1
  have hsame : newValue live.workspace.historyAt = live.shown := by
    rw [← hhistory] at hhere
    have hkept := hfollows (live.workspace.historyAt, here) hhere
      (by rw [Live.place_of_ne hnonzero]; exact hplace)
    rw [hkept.1, ← Live.place_of_ne hat, hwalked.here]
  let undone : Live State := { workspace := after, inForce := reached.settings.getD live.inForce }
  have hnext : undone.next forms (.step .redo again) =
      { workspace := last, inForce := redone.settings.getD undone.inForce } := Live.next_step_of_ok hredo
  refine ⟨redone, last, hredo, ?_, ?_, ?_⟩
  · rw [hnext]
  · rw [hnext]
    exact hlastValue.trans (by rw [hlastAt, hsame])
  · rw [readHistory, readHistory, hlast, hlastAt, hhistory]

/-- Undo and redo walk the recorded entries: after every run in which the settings change only as they are
recorded, each step brings back what its entry stood for, undo and redo cancel, and a step that fails
changes nothing. -/
theorem undo_redo_walk (hfaithful : Faithful forms) (start : Live State) (hfresh : Fresh start.workspace)
    (hcurrent : Current forms start.workspace.snapshot) (calls : List (Call Snapshot State))
    (hproper : ∀ front call back, calls = front ++ call :: back →
      Proper forms (start.walk forms front) call) : WalksBack forms start calls := by
  obtain ⟨value, hwalked, hseen⟩ := walked_walk hfaithful hfresh hcurrent calls hproper
  refine ⟨?_, ?_, ?_⟩
  · intro step now reached after hok
    obtain ⟨entry, hquery, hsnapshot, hhistory, -, hvalue⟩ := hwalked.step hfaithful hok
    have hkey : after.historyAt ∈ (start.walk forms calls).workspace.history.keys :=
      SortedMap.mem_keys.mpr ⟨entry, step.query_mem hquery⟩
    obtain ⟨past, hpast, hshown⟩ := Option.map_eq_some_iff.mp (hseen after.historyAt (Or.inl hkey))
    have hnext : start.walk forms (calls ++ [.step step now]) = _ := start.walk_append calls _
    rw [Live.next_step_of_ok hok] at hnext
    refine ⟨entry, past, query_eq_some.mp hquery, hsnapshot, hpast, ?_, ?_⟩
    · rw [hnext]
    · rw [hnext, hshown]
      exact hvalue
  · intro now reached after hundo again
    have hwalk : start.walk forms (calls ++ [.step .undo now, .step .redo again]) =
        ((start.walk forms calls).next forms (.step .undo now)).next forms (.step .redo again) :=
      List.foldl_append
    rw [hwalk]
    exact hwalked.redo_undo hfaithful hundo again
  · intro step now err herror
    rw [Live.walk_append]
    exact Live.next_step_of_error herror

/-- A dial is turned, a node is moved, the dial is turned again, and both are undone. -/
theorem undo_redo_walk_dial :
    WalksBack textForms { workspace := starter, inForce := "100 MHz" }
      [.settings { node := "device", before := "100 MHz", after := "101 MHz" } 0,
       .update { revision := 1, name := none, snapshot := some "moved" } 300000000 300000000,
       .settings { node := "device", before := "101 MHz", after := "102 MHz" } 400000000,
       .step .undo 500000000,
       .step .undo 600000000] := by
  refine undo_redo_walk ⟨fun _ _ ↦ rfl, fun _ ↦ rfl⟩ _ starter_fresh ⟨"starter", rfl, rfl⟩ _ ?_
  apply forall_split_cons
  · exact ⟨rfl, fun hcoalesces ↦ hcoalesces.2.2.1 rfl⟩
  apply forall_split_cons
  · exact fun _ _ _ _ ↦ rfl
  apply forall_split_cons
  · refine ⟨rfl, fun hcoalesces ↦ ?_⟩
    have hnone := hcoalesces.2.1
    revert hnone
    decide
  apply forall_split_cons
  · exact trivial
  apply forall_split_cons
  · exact trivial
  · intro front call back hsplit
    exact absurd hsplit (List.append_ne_nil_of_right_ne_nil front (List.cons_ne_nil call back)).symm

end Sdrmm.WorkspaceHistory
