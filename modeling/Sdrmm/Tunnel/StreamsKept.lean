import Sdrmm.Tunnel.Streams

/-!
# Streams that stay open

A stream that was opened stays in the table until it is reset or its task ends, and what the relay sends for it
reaches its own task, exactly as long as no completion is joined after its stream was opened again, and no data
comes for a task that has dropped its receiver.
-/

namespace Sdrmm.Tunnel

/-- The task was not reset and has not ended. -/
def Task.Live (task : Task) : Prop := task.aborted = false ∧ task.ended = none

instance (task : Task) : Decidable task.Live := inferInstanceAs (Decidable (_ ∧ _))

/-- The item that a frame brings to a stream. -/
def Frame.item : Frame → Option (ℕ × Inbound)
  | .body stream data => some (stream, .body data)
  | .fin stream => some (stream, .fin)
  | .text stream data => some (stream, .text data)
  | .binary stream data => some (stream, .binary data)
  | .close stream code reason => some (stream, .close code reason)
  | _ => none

namespace Streams

variable {streams before after : Streams}

/-- The streams that are neither reset nor done are in the table. -/
def Stay (streams : Streams) : Prop :=
  ∀ (number : ℕ) (task : Task), streams.tasks[number]? = some task → task.Live →
    streams.open task.stream = some number

/-- What a frame brings to a stream reaches its task and window, or the stream is reset. -/
def Reaches (before after : Streams) (frame : Frame) : Prop :=
  ∀ (number : ℕ) (task : Task), before.tasks[number]? = some task → task.Live →
    (∀ item, frame.item = some (task.stream, item) →
      after.tasks[number]? = some { task with queue := task.queue ++ [item] } ∨
        ∃ reason, after.out = before.out ++ [.reset task.stream reason]) ∧
    ∀ bytes, frame = .credit task.stream bytes → after.tasks[number]? = some (grant task bytes)

/-- The streams stay and the frames reach them throughout a run, which ends with the first step that cannot be
made. -/
def Keeps (streams : Streams) : List Action → Prop
  | [] => streams.Stay
  | action :: actions =>
    streams.Stay ∧ ∀ next, streams.step action = some next →
      (∀ frame, action = .frame frame → streams.Reaches next frame) ∧ next.Keeps actions

/-- The step is not the join of a task that returned whose stream has been opened again by a task that is still
there, and no item for a task that has dropped its receiver. -/
def Meets (streams : Streams) : Action → Prop
  | .join number => ∀ task, streams.tasks[number]? = some task → task.ended = some .returned →
      ∀ other found, streams.open task.stream = some other → streams.tasks[other]? = some found → ¬found.Live
  | .frame frame => ∀ stream item, frame.item = some (stream, item) →
      ∀ number task, streams.open stream = some number → streams.tasks[number]? = some task → task.Live →
        task.receiving = true
  | _ => True

def MeetAll (streams : Streams) : List Action → Prop
  | [] => True
  | action :: actions =>
    ∀ next, streams.step action = some next → streams.Meets action ∧ next.MeetAll actions

/-! ## Tasks -/

theorem tasks_modify (number other : ℕ) (change : Task → Task) :
    (streams.modify number change).tasks[other]? =
      if number = other then streams.tasks[other]?.map change else streams.tasks[other]? := by
  unfold modify
  rw [List.getElem?_modify]
  split_ifs
  · rfl
  · rw [id_map']

theorem running_eq_some {number : ℕ} {change : Task → Option Task}
    (hrun : streams.running number change = some after) :
    ∃ task changed, streams.tasks[number]? = some task ∧ task.ended = none ∧ change task = some changed ∧
      after = streams.modify number fun _ ↦ changed := by
  unfold running at hrun
  obtain ⟨task, htask, hrun⟩ := Option.bind_eq_some_iff.mp hrun
  split_ifs at hrun with hended
  obtain ⟨changed, hchanged, hrun⟩ := Option.bind_eq_some_iff.mp hrun
  exact ⟨task, changed, htask, Option.not_isSome_iff_eq_none.mp hended, hchanged, (Option.some.inj hrun).symm⟩

/-- An entry of the table is of its own stream. -/
def Owned (streams : Streams) : Prop :=
  ∀ stream number, streams.open stream = some number →
    ∃ task, streams.tasks[number]? = some task ∧ task.stream = stream

/-- A change to a task that leaves its stream and does not make it live again. -/
theorem Owned.modify (howned : Owned streams) (hstay : streams.Stay) (number : ℕ) {change : Task → Task}
    (hchange : ∀ task, streams.tasks[number]? = some task →
      (change task).stream = task.stream ∧ ((change task).Live → task.Live)) :
    Owned (streams.modify number change) ∧ (streams.modify number change).Stay := by
  refine ⟨?_, ?_⟩
  · intro stream other hopen
    obtain ⟨found, hfound, hstream⟩ := howned stream other hopen
    rw [tasks_modify, hfound]
    split_ifs with hsame
    · subst hsame
      exact ⟨_, rfl, (hchange found hfound).1.trans hstream⟩
    · exact ⟨found, rfl, hstream⟩
  · intro other found hfound hlive
    rw [tasks_modify] at hfound
    split_ifs at hfound with hsame
    · subst hsame
      obtain ⟨old, hold, rfl⟩ := Option.map_eq_some_iff.mp hfound
      rw [(hchange old hold).1]
      exact hstay number old hold ((hchange old hold).2 hlive)
    · exact hstay other found hfound hlive

theorem Owned.running (howned : Owned streams) (hstay : streams.Stay) {number : ℕ}
    {change : Task → Option Task} (hrun : streams.running number change = some after)
    (hchange : ∀ task changed, change task = some changed →
      changed.stream = task.stream ∧ (changed.Live → task.Live)) :
    Owned after ∧ after.Stay := by
  obtain ⟨task, changed, htask, -, hchanged, rfl⟩ := running_eq_some hrun
  apply howned.modify hstay
  intro found hfound
  cases htask.symm.trans hfound
  exact hchange task changed hchanged

theorem Owned.start (howned : Owned streams) (hstay : streams.Stay) {stream : ℕ} {head : RequestHead}
    (hstart : streams.start stream head = .ok after) : Owned after ∧ after.Stay := by
  unfold Streams.start at hstart
  split_ifs at hstart with hopened
  obtain rfl := Except.ok.inj hstart
  have hnone : streams.open stream = none := Option.not_isSome_iff_eq_none.mp fun hsome ↦ hopened (Or.inr hsome)
  refine ⟨?_, ?_⟩
  · intro other number hopen
    dsimp only at hopen ⊢
    by_cases hsame : other = stream
    · subst hsame
      rw [Function.update_self] at hopen
      cases hopen
      exact ⟨_, List.getElem?_concat_length, rfl⟩
    · rw [Function.update_of_ne hsame] at hopen
      obtain ⟨task, htask, htaskStream⟩ := howned other number hopen
      have hlt : number < streams.tasks.length := (List.getElem?_eq_some_iff.mp htask).1
      exact ⟨task, (List.getElem?_append_left hlt).trans htask, htaskStream⟩
  · intro number task htask hlive
    dsimp only at htask ⊢
    by_cases hlt : number < streams.tasks.length
    · rw [List.getElem?_append_left hlt] at htask
      have hopen := hstay number task htask hlive
      have hother : task.stream ≠ stream := by
        intro hsame
        rw [hsame, hnone] at hopen
        cases hopen
      rw [Function.update_of_ne hother]
      exact hopen
    · have hlast : number = streams.tasks.length := by
        have hbound := (List.getElem?_eq_some_iff.mp htask).1
        rw [List.length_append, List.length_singleton] at hbound
        omega
      subst hlast
      rw [List.getElem?_concat_length] at htask
      cases htask
      exact Function.update_self ..

/-- A stream is reset: its entry goes, and its task is aborted. -/
theorem Owned.reset (howned : Owned streams) (hstay : streams.Stay) {stream number : ℕ}
    (hopen : streams.open stream = some number) :
    Owned ((streams.remove stream).abort number) ∧ ((streams.remove stream).abort number).Stay := by
  have htasks : ∀ other found, ((streams.remove stream).abort number).tasks[other]? = some found →
      ∃ old, streams.tasks[other]? = some old ∧ found.stream = old.stream ∧
        (found.Live → old.Live ∧ other ≠ number) := by
    intro other found hfound
    rw [abort, tasks_modify] at hfound
    split_ifs at hfound with hsame
    · obtain ⟨old, hold, rfl⟩ := Option.map_eq_some_iff.mp hfound
      refine ⟨old, hold, ?_, ?_⟩
      · split_ifs
        · rfl
        · rfl
      · split_ifs with hended
        · exact fun hlive ↦ nomatch hlive.1
        · intro hlive
          rw [hlive.2] at hended
          exact absurd rfl hended
    · exact ⟨found, hfound, rfl, fun hlive ↦ ⟨hlive, Ne.symm hsame⟩⟩
  refine ⟨?_, ?_⟩
  · intro other task htask
    change Function.update streams.open stream none other = some task at htask
    by_cases hsame : other = stream
    · subst hsame
      rw [Function.update_self] at htask
      cases htask
    · rw [Function.update_of_ne hsame] at htask
      obtain ⟨found, hfound, hfoundStream⟩ := howned other task htask
      have hother : number ≠ task := by
        rintro rfl
        obtain ⟨own, hown, hownStream⟩ := howned stream number hopen
        cases hown.symm.trans hfound
        exact hsame (hfoundStream.symm.trans hownStream)
      refine ⟨found, ?_, hfoundStream⟩
      rw [abort, tasks_modify, if_neg hother]
      exact hfound
  · intro other found hfound hlive
    obtain ⟨old, hold, hstream, hkept⟩ := htasks other found hfound
    obtain ⟨holdLive, hne⟩ := hkept hlive
    have hopenOld := hstay other old hold holdLive
    have hsame : old.stream ≠ stream := by
      intro hsame
      rw [hsame, hopen] at hopenOld
      exact hne (Option.some.inj hopenOld).symm
    rw [hstream]
    exact (Function.update_of_ne hsame ..).trans hopenOld

theorem Owned.deliver (howned : Owned streams) (hstay : streams.Stay) (stream : ℕ) (item : Inbound) :
    Owned (streams.deliver stream item) ∧ (streams.deliver stream item).Stay := by
  unfold Streams.deliver
  split
  · exact ⟨howned, hstay⟩
  next number hopen =>
  split
  · exact howned.modify hstay number fun task _ ↦ ⟨rfl, id⟩
  · exact howned.reset hstay hopen
  · exact ⟨howned, hstay⟩

/-- The live task of a stream that gets an item takes it, or the stream is reset. -/
theorem Stay.deliver (hstay : streams.Stay) {number : ℕ} {task : Task} (htask : streams.tasks[number]? = some task)
    (hlive : task.Live) (hreceiving : task.receiving = true) (item : Inbound) :
    (streams.deliver task.stream item).tasks[number]? = some { task with queue := task.queue ++ [item] } ∨
      ∃ reason, (streams.deliver task.stream item).out = streams.out ++ [.reset task.stream reason] := by
  unfold Streams.deliver
  rw [hstay number task htask hlive]
  dsimp only
  rw [htask, Option.map_some]
  by_cases hfull : inbound ≤ task.queue.length
  · have htry : trySend task = .full := by
      rw [trySend, hreceiving, if_pos hfull]
      rfl
    rw [htry]
    exact Or.inr ⟨_, rfl⟩
  · have htry : trySend task = .sent := by
      rw [trySend, hreceiving, if_neg hfull]
      rfl
    rw [htry]
    dsimp only
    rw [tasks_modify, if_pos rfl, htask]
    exact Or.inl rfl

theorem Owned.handle (howned : Owned streams) (hstay : streams.Stay) {frame : Frame}
    (hhandle : streams.handle frame = .ok after) : Owned after ∧ after.Stay := by
  cases frame with
  | request stream head => exact howned.start hstay hhandle
  | body stream data =>
    cases hhandle
    exact howned.deliver hstay stream _
  | fin stream =>
    cases hhandle
    exact howned.deliver hstay stream _
  | text stream data =>
    cases hhandle
    exact howned.deliver hstay stream _
  | binary stream data =>
    cases hhandle
    exact howned.deliver hstay stream _
  | close stream code reason =>
    cases hhandle
    exact howned.deliver hstay stream _
  | credit stream bytes =>
    rw [Streams.handle] at hhandle
    split at hhandle
    · cases hhandle
      exact ⟨howned, hstay⟩
    · cases hhandle
      exact howned.modify hstay _ fun task _ ↦ ⟨rfl, id⟩
  | reset stream reason =>
    rw [Streams.handle] at hhandle
    split at hhandle
    · cases hhandle
      exact ⟨howned, hstay⟩
    next number hopen =>
      cases hhandle
      exact howned.reset hstay hopen
  | _ => cases hhandle

/-- What a data frame is handled as. -/
theorem handle_item {frame : Frame} {stream : ℕ} {item : Inbound} (hitem : frame.item = some (stream, item)) :
    streams.handle frame = .ok (streams.deliver stream item) := by
  cases frame with
  | body | fin | text | binary | close =>
    cases hitem
    rfl
  | _ => cases hitem

theorem deliver_closed {stream number : ℕ} {task : Task} (hopen : streams.open stream = some number)
    (htask : streams.tasks[number]? = some task) (hclosed : task.receiving = false) (item : Inbound) :
    streams.deliver stream item = streams := by
  have htry : trySend task = .closed := by
    rw [trySend, hclosed]
    rfl
  unfold Streams.deliver
  rw [hopen]
  dsimp only
  rw [htask, Option.map_some, htry]

/-- A frame reaches its stream exactly if no item comes for a task that has dropped its receiver. -/
theorem Owned.reaches_iff (howned : Owned streams) (hstay : streams.Stay) {frame : Frame}
    (hhandle : streams.handle frame = .ok after) :
    streams.Reaches after frame ↔ streams.Meets (.frame frame) := by
  constructor
  · intro hreaches stream item hitem number task hopen htask hlive
    by_contra hreceiving
    obtain ⟨own, hown, hstream⟩ := howned stream number hopen
    cases htask.symm.trans hown
    subst hstream
    have hafter : after = streams := by
      rw [handle_item hitem, deliver_closed hopen htask (Bool.not_eq_true _ ▸ hreceiving)] at hhandle
      exact (Except.ok.inj hhandle).symm
    rw [hafter] at hreaches
    rcases (hreaches number task htask hlive).1 item hitem with hqueue | ⟨reason, hout⟩
    · have hsame := congrArg Task.queue (Option.some.inj (htask.symm.trans hqueue))
      exact absurd (congrArg List.length hsame) (by rw [List.length_append, List.length_singleton]; omega)
    · exact absurd (congrArg List.length hout) (by rw [List.length_append, List.length_singleton]; omega)
  · intro hmeets number task htask hlive
    refine ⟨fun item hitem ↦ ?_, ?_⟩
    · have hreceiving := hmeets task.stream item hitem number task (hstay number task htask hlive) htask hlive
      rw [handle_item hitem] at hhandle
      rw [← Except.ok.inj hhandle]
      exact hstay.deliver htask hlive hreceiving item
    · rintro bytes rfl
      rw [Streams.handle, hstay number task htask hlive] at hhandle
      rw [← Except.ok.inj hhandle, tasks_modify, if_pos rfl, htask]
      rfl

theorem join_eq_some {number : ℕ} (hstep : streams.step (.join number) = some after) :
    ∃ task ended, streams.tasks[number]? = some task ∧ task.ended = some ended ∧
      after = (streams.modify number fun task ↦ { task with joined := true }).finish task.stream ended := by
  rw [Streams.step] at hstep
  obtain ⟨task, htask, hstep⟩ := Option.bind_eq_some_iff.mp hstep
  obtain ⟨ended, hended, hstep⟩ := Option.bind_eq_some_iff.mp hstep
  split_ifs at hstep
  exact ⟨task, ended, htask, hended, (Option.some.inj hstep).symm⟩

theorem Owned.remove (howned : Owned streams) (stream : ℕ) : Owned (streams.remove stream) := by
  intro other number hopen
  by_cases hsame : other = stream
  · subst hsame
    cases (Function.update_self ..).symm.trans hopen
  · exact howned other number ((Function.update_of_ne hsame ..).symm.trans hopen)

/-- Joining a task that ended keeps the streams exactly if it is not the stale completion of one that is open
again. -/
theorem Owned.join_iff (howned : Owned streams) (hstay : streams.Stay) {number : ℕ}
    (hstep : streams.step (.join number) = some after) :
    Owned after ∧ (after.Stay ↔ streams.Meets (.join number)) := by
  obtain ⟨task, ended, htask, hended, rfl⟩ := join_eq_some hstep
  have hjoined : Owned (streams.modify number fun task ↦ { task with joined := true }) ∧
      (streams.modify number fun task ↦ { task with joined := true }).Stay :=
    howned.modify hstay number fun task _ ↦ ⟨rfl, id⟩
  have hother : ∀ {other : ℕ} {found : Task}, streams.tasks[other]? = some found → found.Live →
      (streams.modify number fun task ↦ { task with joined := true }).tasks[other]? = some found := by
    intro other found hfound hlive
    have hne : number ≠ other := by
      rintro rfl
      cases htask.symm.trans hfound
      cases hlive.2.symm.trans hended
    rw [tasks_modify, if_neg hne]
    exact hfound
  cases ended with
  | returned =>
    refine ⟨hjoined.1.remove task.stream, ?_, ?_⟩
    · intro hstayAfter found' hfound' _ other found hopen hfound hlive
      cases htask.symm.trans hfound'
      obtain ⟨own, hown, hstream⟩ := howned task.stream other hopen
      cases hfound.symm.trans hown
      have hopenAfter := hstayAfter other found (hother hfound hlive) hlive
      rw [hstream] at hopenAfter
      cases (Function.update_self ..).symm.trans hopenAfter
    · intro hmeets other found hfound hlive
      have hopen := hjoined.2 other found hfound hlive
      have hne : found.stream ≠ task.stream := by
        intro hsame
        change streams.open found.stream = some other at hopen
        rw [hsame] at hopen
        obtain ⟨own, hown, -⟩ := howned task.stream other hopen
        change (streams.modify number _).tasks[other]? = some found at hfound
        rw [tasks_modify, hown] at hfound
        split_ifs at hfound
        · cases hfound
          exact hmeets task htask hended other own hopen hown hlive
        · cases hfound
          exact hmeets task htask hended other found hopen hown hlive
      exact (Function.update_of_ne hne ..).trans hopen
  | panicked =>
    refine ⟨hjoined.1, fun _ found hfound hreturned ↦ ?_, fun _ ↦ hjoined.2⟩
    cases htask.symm.trans hfound
    cases hended.symm.trans hreturned
  | cancelled =>
    refine ⟨hjoined.1, fun _ found hfound hreturned ↦ ?_, fun _ ↦ hjoined.2⟩
    cases htask.symm.trans hfound
    cases hended.symm.trans hreturned

/-- What a step keeps. -/
theorem Owned.step_iff (howned : Owned streams) (hstay : streams.Stay) {action : Action}
    (hstep : streams.step action = some after) :
    Owned after ∧ ((after.Stay ∧ ∀ frame, action = .frame frame → streams.Reaches after frame) ↔
      streams.Meets action) := by
  cases action with
  | frame frame =>
    have hhandle : streams.handle frame = .ok after := by
      rw [Streams.step] at hstep
      cases hframe : streams.handle frame with
      | ok next =>
        rw [hframe] at hstep
        exact congrArg _ (Option.some.inj hstep)
      | error error =>
        rw [hframe] at hstep
        cases hstep
    obtain ⟨hownedAfter, hstayAfter⟩ := howned.handle hstay hhandle
    refine ⟨hownedAfter, ?_⟩
    rw [← howned.reaches_iff hstay hhandle]
    constructor
    · exact fun hboth ↦ hboth.2 frame rfl
    · rintro hreaches
      refine ⟨hstayAfter, ?_⟩
      rintro _ ⟨⟩
      exact hreaches
  | join number =>
    obtain ⟨hownedAfter, hiff⟩ := howned.join_iff hstay hstep
    exact ⟨hownedAfter, (and_iff_left nofun).trans hiff⟩
  | send number frame =>
    rw [Streams.step] at hstep
    obtain ⟨task, htask, hstep⟩ := Option.bind_eq_some_iff.mp hstep
    split_ifs at hstep
    cases hstep
    exact ⟨howned, iff_of_true ⟨hstay, nofun⟩ trivial⟩
  | take number =>
    have hafter := howned.running hstay hstep ?_
    · exact ⟨hafter.1, iff_of_true ⟨hafter.2, nofun⟩ trivial⟩
    · intro task changed hchange
      split_ifs at hchange
      cases hchange
      exact ⟨rfl, id⟩
  | spend number bytes =>
    have hafter := howned.running hstay hstep ?_
    · exact ⟨hafter.1, iff_of_true ⟨hafter.2, nofun⟩ trivial⟩
    · intro task changed hchange
      split_ifs at hchange
      cases hchange
      exact ⟨rfl, id⟩
  | drop number =>
    have hafter := howned.running hstay hstep ?_
    · exact ⟨hafter.1, iff_of_true ⟨hafter.2, nofun⟩ trivial⟩
    · intro task changed hchange
      cases hchange
      exact ⟨rfl, id⟩
  | finish number ended =>
    have hafter := howned.running hstay hstep ?_
    · exact ⟨hafter.1, iff_of_true ⟨hafter.2, nofun⟩ trivial⟩
    · intro task changed hchange
      split_ifs at hchange
      cases hchange
      exact ⟨rfl, fun hlive ↦ nomatch hlive.2⟩

theorem Owned.keeps_iff (howned : Owned streams) (hstay : streams.Stay) (actions : List Action) :
    streams.Keeps actions ↔ streams.MeetAll actions := by
  induction actions generalizing streams with
  | nil => exact iff_of_true hstay trivial
  | cons action actions ih =>
    constructor
    · rintro ⟨-, hkeeps⟩ next hstep
      obtain ⟨hownedNext, hiff⟩ := howned.step_iff hstay hstep
      obtain ⟨hreaches, hrest⟩ := hkeeps next hstep
      have hstayNext : next.Stay := by
        cases actions with
        | nil => exact hrest
        | cons _ _ => exact hrest.1
      exact ⟨hiff.mp ⟨hstayNext, hreaches⟩, (ih hownedNext hstayNext).mp hrest⟩
    · intro hmeets
      refine ⟨hstay, fun next hstep ↦ ?_⟩
      obtain ⟨hownedNext, hiff⟩ := howned.step_iff hstay hstep
      obtain ⟨hmeetsNow, hrest⟩ := hmeets next hstep
      obtain ⟨hstayNext, hreaches⟩ := hiff.mpr hmeetsNow
      exact ⟨hreaches, (ih hownedNext hstayNext).mpr hrest⟩

/-- Throughout a run the streams stay and the frames reach them exactly as long as its steps meet the
condition. -/
theorem keeps_iff_meetAll (actions : List Action) : new.Keeps actions ↔ new.MeetAll actions := by
  have howned : Owned new := fun _ _ hopen ↦ nomatch hopen
  have hstay : new.Stay := by
    intro number task htask
    cases List.getElem?_nil.symm.trans htask
  exact howned.keeps_iff hstay actions

/-- A stream that returned is reset and opened again before its completion is joined. -/
def staleJoin : List Action :=
  [.frame (.request 1 ⟨"GET", "/", [], false, "user"⟩), .finish 0 .returned, .frame (.reset 1 "gone"),
    .frame (.request 1 ⟨"GET", "/", [], false, "user"⟩), .join 0, .frame (.body 1 [0])]

/-- The join takes the stream that is open out of the table, and its body reaches nobody. -/
theorem not_keeps_staleJoin : ¬new.Keeps staleJoin := by
  rintro ⟨-, hopened⟩
  obtain ⟨-, -, hreturned⟩ := hopened _ rfl
  obtain ⟨-, -, hreset⟩ := hreturned _ rfl
  obtain ⟨-, -, hagain⟩ := hreset _ rfl
  obtain ⟨-, -, hjoined⟩ := hagain _ rfl
  obtain ⟨-, hstay, -⟩ := hjoined _ rfl
  have hgone := hstay 1 _ rfl ⟨rfl, rfl⟩
  cases hgone

end Streams

end Sdrmm.Tunnel
