import Sdrmm.Engine.TimeMachineCapture

/-!
# Shutting the time machine down

The loop of `Keeper::run` in `engine/src/time_machine.rs` with its steps taken apart, next to a tap that
pushes blocks and is dropped.  The keeper returns when it has found the queue empty and then, by a second
look at the queue, the tap gone.  Blocks that the tap queues between the two and leaves behind are never
drained: `nothingLost_iff` is that a shutdown loses nothing exactly if no block is queued after the
keeper's last look.
-/

namespace Sdrmm.TimeMachine

variable {α C : Type}

/-- Where the keeper is in its loop. -/
inductive Phase
  | control | looking | reading | checking | returned
  deriving DecidableEq

/-- Tap and keeper up to the end of both. -/
structure Shutdown (α C : Type) where
  machine : State α C
  tapAlive : Bool
  phase : Phase

/-- Steps of the tap, `push`, `offer` and `dropTap`, and of the keeper.  A command of `drain_control` is
`begin` or `stop`, and `controlDone` its return. -/
inductive ShutdownEvent (α C : Type)
  | push (samples : List α) (centerHz : C)
  | offer
  | dropTap
  | begin (centerHz : C)
  | stop
  | controlDone
  | look
  | drain (wrap : ℕ)
  | check

namespace Shutdown

variable [BEq C]

def machineStep (config : Config C) (s : Shutdown α C) (phase : Phase) (event : Event α C) :
    Option (Shutdown α C) :=
  (TimeMachine.step config s.machine event).map fun machine ↦
    { s with machine := machine, phase := phase }

def step (config : Config C) (s : Shutdown α C) : ShutdownEvent α C → Option (Shutdown α C)
  | .push samples centerHz =>
      if s.tapAlive then s.machineStep config s.phase (.push samples centerHz) else none
  | .offer => if s.machine.offering.isSome then s.machineStep config s.phase .offer else none
  | .dropTap =>
      if s.tapAlive ∧ s.machine.offering.isNone then some { s with tapAlive := false } else none
  | .begin centerHz =>
      if s.phase = .control then s.machineStep config .control (.begin centerHz) else none
  | .stop => if s.phase = .control then s.machineStep config .control .close else none
  | .controlDone => if s.phase = .control then some { s with phase := .looking } else none
  | .look =>
      if s.phase = .looking then
        s.machineStep config (if s.machine.samples.length = 0 then .checking else .reading) .look
      else none
  | .drain wrap => if s.phase = .reading then s.machineStep config .control (.drain wrap) else none
  | .check =>
      if s.phase = .checking then
        -- `samples.is_abandoned()`, and otherwise a sleep.
        if s.tapAlive then some { s with phase := .control }
        else s.machineStep config .returned .close
      else none

def start (config : Config C) (silence : α) : Shutdown α C :=
  ⟨TimeMachine.start config silence, true, .control⟩

def run (config : Config C) (silence : α) (events : List (ShutdownEvent α C)) :
    Option (Shutdown α C) :=
  events.foldlM (step config) (start config silence)

end Shutdown

/-- Every sample that was accepted has been drained into the ring, and into each capture that was open
then. -/
structure NothingLost (config : Config C) (s : State α C) : Prop where
  drained : s.keeper.history.next = s.accepted.length
  ring : s.keeper.history.Holds config.capacity (s.accepted.map Prod.fst)
  finished : s.keeper.capture = none
  captured : ∀ taking stop, (taking, stop) ∈ s.keeper.closed → ∀ p, taking.begun ≤ p → p < stop →
    taking.capture.writer.data[p - taking.from₀ config.capacity]? = (s.accepted.map Prod.fst)[p]?

/-- After the keeper's last look at the queue the tap has no further block accepted. -/
def QuietEnd [BEq C] (config : Config C) (silence : α) (events : List (ShutdownEvent α C))
    (s : Shutdown α C) : Prop :=
  ∀ before middle, events = before ++ .look :: middle → .look ∉ middle →
    ∀ looked, Shutdown.run config silence before = some looked →
      s.machine.accepted = looked.machine.accepted

namespace Shutdown

variable [BEq C] {config : Config C} {s t : Shutdown α C} {event : ShutdownEvent α C}

/-! ## Steps -/

theorem machineStep_eq_some {phase : Phase} {own : Event α C}
    (hstep : s.machineStep config phase own = some t) :
    TimeMachine.step config s.machine own = some t.machine ∧ t.tapAlive = s.tapAlive ∧
      t.phase = phase := by
  obtain ⟨machine, hmachine, rfl⟩ := Option.map_eq_some_iff.mp hstep
  exact ⟨hmachine, rfl, rfl⟩

/-- Every step is one of the machine or leaves the machine alone. -/
theorem step_machine (hstep : s.step config event = some t) :
    t.machine = s.machine ∨ ∃ own, TimeMachine.step config s.machine own = some t.machine := by
  have hown {phase : Phase} {own : Event α C} (hmachine : s.machineStep config phase own = some t) :
      t.machine = s.machine ∨ ∃ own, TimeMachine.step config s.machine own = some t.machine :=
    Or.inr ⟨own, (machineStep_eq_some hmachine).1⟩
  cases event <;> simp only [step] at hstep <;> split_ifs at hstep
  all_goals first
    | exact hown hstep
    | exact Or.inl (congrArg machine (Option.some.inj hstep)).symm

/-- What was accepted stays so. -/
theorem accepted_grows {m next : State α C} {own : Event α C}
    (hown : TimeMachine.step config m own = some next) : m.accepted <+: next.accepted := by
  cases own with
  | push samples centerHz =>
    simp only [TimeMachine.step] at hown
    split_ifs at hown
    rw [← Option.some.inj hown, TimeMachine.push]
    split_ifs <;> exact List.prefix_refl _
  | offer =>
    rw [← Option.some.inj hown, TimeMachine.offer]
    split
    · exact List.prefix_refl _
    · split_ifs
      · exact List.prefix_append _ _
      · exact List.prefix_refl _
  | look =>
    simp only [TimeMachine.step] at hown
    split_ifs at hown <;> exact Option.some.inj hown ▸ List.prefix_refl _
  | drain wrap =>
    obtain ⟨count, _, rfl⟩ := Option.map_eq_some_iff.mp hown
    exact List.prefix_refl _
  | begin centerHz =>
    simp only [TimeMachine.step] at hown
    split_ifs at hown
    exact Option.some.inj hown ▸ List.prefix_refl _
  | close =>
    simp only [TimeMachine.step] at hown
    split_ifs at hown
    exact Option.some.inj hown ▸ List.prefix_refl _

/-- What a step of the tap leaves alone. -/
structure TapStep (s t : Shutdown α C) : Prop where
  phase : t.phase = s.phase
  keeper : t.machine.keeper = s.machine.keeper

theorem push_keeper (config : Config C) (m : State α C) (samples : List α) (centerHz : C) :
    (TimeMachine.push config m samples centerHz).keeper = m.keeper := by
  unfold TimeMachine.push
  split_ifs <;> rfl

omit [BEq C] in
theorem offer_keeper (config : Config C) (m : State α C) :
    (TimeMachine.offer config m).keeper = m.keeper := by
  unfold TimeMachine.offer
  split
  · rfl
  · split_ifs <;> rfl

/-- What a step can do to the keeper: nothing, bring it back to the front of its loop or to a chunk,
find the queue empty, or find the tap gone and return. -/
theorem step_cases (hstep : s.step config event = some t) :
    (event ≠ .look ∧ TapStep s t) ∨
    (t.phase = .control ∨ t.phase = .looking ∨ t.phase = .reading) ∨
    (event = .look ∧ s.machine.samples = [] ∧ t.machine = s.machine ∧ t.phase = .checking) ∨
    (event = .check ∧ s.phase = .checking ∧ t.phase = .returned ∧
      t.machine = { s.machine with keeper := s.machine.keeper.close }) := by
  cases event with
  | push samples centerHz =>
    simp only [step] at hstep
    split_ifs at hstep
    obtain ⟨hmachine, _, hphase⟩ := machineStep_eq_some hstep
    simp only [TimeMachine.step] at hmachine
    split_ifs at hmachine
    refine Or.inl ⟨by simp, hphase, ?_⟩
    rw [← Option.some.inj hmachine]
    exact push_keeper config s.machine samples centerHz
  | offer =>
    simp only [step] at hstep
    split_ifs at hstep
    obtain ⟨hmachine, _, hphase⟩ := machineStep_eq_some hstep
    refine Or.inl ⟨by simp, hphase, ?_⟩
    rw [← Option.some.inj hmachine]
    exact offer_keeper config s.machine
  | dropTap =>
    simp only [step] at hstep
    split_ifs at hstep
    obtain rfl := Option.some.inj hstep
    exact Or.inl ⟨by simp, rfl, rfl⟩
  | begin centerHz =>
    simp only [step] at hstep
    split_ifs at hstep
    exact Or.inr (Or.inl (Or.inl (machineStep_eq_some hstep).2.2))
  | stop =>
    simp only [step] at hstep
    split_ifs at hstep
    exact Or.inr (Or.inl (Or.inl (machineStep_eq_some hstep).2.2))
  | controlDone =>
    simp only [step] at hstep
    split_ifs at hstep
    obtain rfl := Option.some.inj hstep
    exact Or.inr (Or.inl (Or.inr (Or.inl rfl)))
  | look =>
    simp only [step] at hstep
    split_ifs at hstep with hphase hempty
    · obtain ⟨hmachine, _, hchecking⟩ := machineStep_eq_some hstep
      simp only [TimeMachine.step] at hmachine
      split_ifs at hmachine
      exact Or.inr (Or.inr (Or.inl ⟨rfl, List.length_eq_zero_iff.mp hempty,
        (Option.some.inj hmachine).symm, hchecking⟩))
    · exact Or.inr (Or.inl (Or.inr (Or.inr (machineStep_eq_some hstep).2.2)))
  | drain wrap =>
    simp only [step] at hstep
    split_ifs at hstep
    exact Or.inr (Or.inl (Or.inl (machineStep_eq_some hstep).2.2))
  | check =>
    simp only [step] at hstep
    split_ifs at hstep with hphase
    · obtain rfl := Option.some.inj hstep
      exact Or.inr (Or.inl (Or.inl rfl))
    · obtain ⟨hmachine, _, hreturned⟩ := machineStep_eq_some hstep
      simp only [TimeMachine.step] at hmachine
      split_ifs at hmachine
      exact Or.inr (Or.inr (Or.inr ⟨rfl, hphase, hreturned, (Option.some.inj hmachine).symm⟩))

/-! ## Runs -/

theorem run_concat (config : Config C) (silence : α) (events : List (ShutdownEvent α C))
    (event : ShutdownEvent α C) : run config silence (events ++ [event]) =
      (run config silence events).bind fun s ↦ s.step config event := by
  rw [run, List.foldlM_append]
  simp only [List.foldlM_cons, List.foldlM_nil, bind_pure]
  rfl

theorem run_accepted_grows {silence : α} {before : List (ShutdownEvent α C)}
    {looked s : Shutdown α C} (hlooked : run config silence before = some looked)
    (rest : List (ShutdownEvent α C)) (hrun : run config silence (before ++ rest) = some s) :
    looked.machine.accepted <+: s.machine.accepted := by
  induction rest using List.reverseRecOn generalizing s with
  | nil =>
    rw [List.append_nil, hlooked] at hrun
    exact Option.some.inj hrun ▸ List.prefix_refl _
  | append_singleton rest event ih =>
    rw [← List.append_assoc, run_concat] at hrun
    obtain ⟨middle, hmiddle, hstep⟩ := Option.bind_eq_some_iff.mp hrun
    refine (ih hmiddle).trans ?_
    rcases step_machine hstep with hsame | ⟨own, hown⟩
    · rw [hsame]
    · exact accepted_grows hown

theorem invariant_of_run [PartialEquivBEq C] (hcapacity : 0 < config.capacity) (silence : α)
    (events : List (ShutdownEvent α C)) {s : Shutdown α C}
    (hrun : run config silence events = some s) : Invariant config s.machine := by
  induction events using List.reverseRecOn generalizing s with
  | nil =>
    obtain rfl := Option.some.inj hrun
    exact Invariant.start config hcapacity silence
  | append_singleton events event ih =>
    rw [run_concat] at hrun
    obtain ⟨middle, hmiddle, hstep⟩ := Option.bind_eq_some_iff.mp hrun
    rcases step_machine hstep with hsame | ⟨own, hown⟩
    · rw [hsame]
      exact ih hmiddle
    · exact (ih hmiddle).step own hown

/-- The keeper waits for the tap to be gone, or has found it gone. -/
def Waiting (s : Shutdown α C) : Prop := s.phase = .checking ∨ s.phase = .returned

/-- A keeper that waits has drained nothing since its last look, which found the queue empty. -/
theorem exists_lastLook {silence : α} (events : List (ShutdownEvent α C)) {s : Shutdown α C}
    (hrun : run config silence events = some s) (hwaiting : s.Waiting) :
    ∃ before middle looked, events = before ++ .look :: middle ∧ .look ∉ middle ∧
      run config silence before = some looked ∧ looked.machine.samples = [] ∧
      s.machine.keeper.history = looked.machine.keeper.history := by
  induction events using List.reverseRecOn generalizing s with
  | nil =>
    obtain rfl := Option.some.inj hrun
    rcases hwaiting with hphase | hphase <;> cases hphase
  | append_singleton events event ih =>
    rw [run_concat] at hrun
    obtain ⟨previous, hprevious, hstep⟩ := Option.bind_eq_some_iff.mp hrun
    have hlonger {history : History α} (hwas : previous.Waiting) (hevent : event ≠ .look)
        (hhistory : history = previous.machine.keeper.history) :
        ∃ before middle looked, events ++ [event] = before ++ .look :: middle ∧ .look ∉ middle ∧
          run config silence before = some looked ∧ looked.machine.samples = [] ∧
          history = looked.machine.keeper.history := by
      obtain ⟨before, middle, looked, hevents, hnone, hlooked, hempty, hsame⟩ := ih hprevious hwas
      refine ⟨before, middle ++ [event], looked, ?_, ?_, hlooked, hempty, hhistory.trans hsame⟩
      · rw [hevents, List.append_assoc, List.cons_append]
      · rw [List.mem_append, List.mem_singleton, not_or]
        exact ⟨hnone, hevent.symm⟩
    rcases step_cases hstep with ⟨hevent, htap⟩ | hfront | ⟨rfl, hempty, hmachine, _⟩ |
      ⟨rfl, hphase, _, hmachine⟩
    · have hwas : previous.Waiting := by rwa [Waiting, ← htap.phase]
      exact hlonger hwas hevent (congrArg Keeper.history htap.keeper)
    · rcases hwaiting with hphase | hphase <;> rw [hphase] at hfront <;> simp at hfront
    · exact ⟨events, [], previous, rfl, List.not_mem_nil, hprevious, hempty,
        congrArg (fun m ↦ m.keeper.history) hmachine⟩
    · apply hlonger (Or.inl hphase) (by simp)
      rw [hmachine]
      exact (close_history _).1

/-- A keeper that has returned has closed its capture. -/
theorem capture_of_returned {silence : α} (events : List (ShutdownEvent α C)) {s : Shutdown α C}
    (hrun : run config silence events = some s) (hreturned : s.phase = .returned) :
    s.machine.keeper.capture = none := by
  induction events using List.reverseRecOn generalizing s with
  | nil =>
    obtain rfl := Option.some.inj hrun
    cases hreturned
  | append_singleton events event ih =>
    rw [run_concat] at hrun
    obtain ⟨previous, hprevious, hstep⟩ := Option.bind_eq_some_iff.mp hrun
    rcases step_cases hstep with ⟨_, htap⟩ | hfront | ⟨_, _, _, hphase⟩ | ⟨_, _, _, hmachine⟩
    · rw [htap.keeper]
      exact ih hprevious (htap.phase ▸ hreturned)
    · rw [hreturned] at hfront
      simp at hfront
    · rw [hreturned] at hphase
      cases hphase
    · rw [hmachine]
      unfold Keeper.close
      split
      · assumption
      · rfl

omit [BEq C] in
theorem lastLook_unique {before before' middle middle' : List (ShutdownEvent α C)}
    (hnone : .look ∉ middle) (hnone' : .look ∉ middle')
    (hsame : before ++ .look :: middle = before' ++ .look :: middle') :
    before = before' ∧ middle = middle' := by
  rcases List.append_eq_append_iff.mp hsame with ⟨more, hlonger, hrest⟩ | ⟨more, hlonger, hrest⟩
  · cases more with
    | nil =>
      rw [List.append_nil] at hlonger
      exact ⟨hlonger.symm, (List.cons.inj hrest).2⟩
    | cons first more =>
      have hmiddle := (List.cons.inj hrest).2
      exact absurd (hmiddle ▸ List.mem_append_right _ List.mem_cons_self) hnone
  · cases more with
    | nil =>
      rw [List.append_nil] at hlonger
      exact ⟨hlonger, (List.cons.inj hrest).2.symm⟩
    | cons first more =>
      have hmiddle := (List.cons.inj hrest).2
      exact absurd (hmiddle ▸ List.mem_append_right _ List.mem_cons_self) hnone'

end Shutdown

/-! ## Nothing lost -/

section Lost

variable [BEq C] {config : Config C} {s : State α C}

theorem Invariant.next_le (hinv : Invariant config s) : s.keeper.history.next ≤ s.accepted.length :=
  hinv.keeper.visible_le

/-- The books are complete once the queue is. -/
theorem Invariant.nothingLost (hinv : Invariant config s)
    (hdrained : s.keeper.history.next = s.accepted.length) (hfinished : s.keeper.capture = none) :
    NothingLost config s where
  drained := hdrained
  ring := by
    have hring := hinv.keeper.history
    rwa [hdrained, ← List.length_map (f := Prod.fst), List.take_length] at hring
  finished := hfinished
  captured taking stop hmem p hbegun hstop := by
    have hfrom : taking.from₀ config.capacity ≤ p := by
      unfold Taking.from₀
      omega
    have hplace : taking.from₀ config.capacity + (p - taking.from₀ config.capacity) = p := by omega
    rw [(hinv.keeper.closed _ hmem).data, List.getElem?_drop, hplace, List.getElem?_take_of_lt hstop]

end Lost

/-- When the keeper returns, everything accepted has been drained exactly if the tap had no block
accepted after the keeper's last look at the queue. -/
theorem nothingLost_iff [BEq C] [PartialEquivBEq C] (config : Config C)
    (hcapacity : 1 ≤ config.capacity) (silence : α) (events : List (ShutdownEvent α C))
    (s : Shutdown α C) (hrun : Shutdown.run config silence events = some s)
    (hreturned : s.phase = .returned) :
    NothingLost config s.machine ↔ QuietEnd config silence events s := by
  have hinv := Shutdown.invariant_of_run hcapacity silence events hrun
  obtain ⟨before, middle, looked, hevents, hnone, hlooked, hempty, hhistory⟩ :=
    Shutdown.exists_lastLook events hrun (Or.inr hreturned)
  -- The last look found everything drained, and nothing was drained after it.
  have hinvLooked := Shutdown.invariant_of_run hcapacity silence before hlooked
  have hnext : s.machine.keeper.history.next = looked.machine.accepted.length := by
    have hfeed := hinvLooked.feed
    rw [hempty, eq_comm, List.drop_eq_nil_iff, List.length_map] at hfeed
    rw [hhistory]
    exact le_antisymm hinvLooked.next_le hfeed
  have hlonger : looked.machine.accepted <+: s.machine.accepted :=
    Shutdown.run_accepted_grows hlooked (.look :: middle) (hevents ▸ hrun)
  constructor
  · intro hlost before' middle' hevents' hnone' looked' hlooked'
    obtain ⟨rfl, rfl⟩ := Shutdown.lastLook_unique hnone hnone' (hevents.symm.trans hevents')
    obtain rfl := Option.some.inj (hlooked.symm.trans hlooked')
    apply (hlonger.eq_of_length _).symm
    rw [← hnext, hlost.drained]
  · intro hquiet
    have hsame := hquiet before middle hevents hnone looked hlooked
    apply hinv.nothingLost
    · rw [hnext, hsame]
    · exact Shutdown.capture_of_returned events hrun hreturned

/-- A block is queued and drained before the tap goes, with a capture open. -/
def orderlyShutdown : List (ShutdownEvent ℕ ℕ) :=
  [.begin 100, .controlDone, .push [1, 2] 100, .offer, .dropTap, .look, .drain 2, .controlDone, .look,
    .check]

theorem nothingLost_orderly : ∃ s, Shutdown.run ⟨4, 4, 4, 100⟩ 0 orderlyShutdown = some s ∧
    s.phase = .returned ∧ s.machine.accepted.length = 2 ∧
      (NothingLost ⟨4, 4, 4, 100⟩ s.machine ↔ QuietEnd ⟨4, 4, 4, 100⟩ 0 orderlyShutdown s) :=
  ⟨_, rfl, rfl, rfl, nothingLost_iff _ (by decide) 0 orderlyShutdown _ rfl rfl⟩

/-- The tap queues a block and goes while the keeper is between its two looks. -/
def lateBlock : List (ShutdownEvent ℕ ℕ) :=
  [.controlDone, .look, .push [1, 2] 100, .offer, .dropTap, .check]

theorem nothingLost_late :
    ¬∀ (events : List (ShutdownEvent ℕ ℕ)) (s : Shutdown ℕ ℕ),
      Shutdown.run ⟨4, 4, 4, 100⟩ 0 events = some s → s.phase = .returned →
        NothingLost ⟨4, 4, 4, 100⟩ s.machine := by
  intro hall
  have hlost := (hall lateBlock _ rfl rfl).drained
  revert hlost
  decide

end Sdrmm.TimeMachine
