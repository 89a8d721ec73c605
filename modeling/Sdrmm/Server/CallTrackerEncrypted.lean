import Sdrmm.Server.CallTracker

/-!
# Encrypted audio

What the audio of a published call is computed from.  A frame that reports encryption clears the stored
samples but not what the decimator still holds; it is that what a later block brings out, if the call takes
one.
-/

namespace Sdrmm.Calls

variable {α F : Type} (arith : Arithmetic α) (tag : α → ℕ)

/-- The samples are computed from windows whose elements all have a property. -/
def FromWindows (p : α → Prop) (samples : List ℤ) : Prop :=
  ∃ windows : List (List α), samples = windows.map (fun window ↦ arith.toI16 (arith.dot window)) ∧
    ∀ window ∈ windows, ∀ x ∈ window, p x

variable {arith} {p q : α → Prop}

theorem fromWindows_nil : FromWindows arith p [] := ⟨[], rfl, fun _ h ↦ absurd h List.not_mem_nil⟩

theorem FromWindows.imp {samples : List ℤ} (hsamples : FromWindows arith p samples) (hpq : ∀ x, p x → q x) :
    FromWindows arith q samples := by
  obtain ⟨windows, rfl, hwindows⟩ := hsamples
  exact ⟨windows, rfl, fun window hwindow x hx ↦ hpq x (hwindows window hwindow x hx)⟩

/-! ## The decimator -/

theorem mem_of_mem_windows {line window : List α} (hwindow : window ∈ windows line) {x : α}
    (hx : x ∈ window) : x ∈ line := by
  obtain ⟨i, _, rfl⟩ := List.mem_map.mp hwindow
  exact List.mem_of_mem_drop (List.mem_of_mem_take hx)

theorem mem_of_mem_stepBy {step : ℕ} {items : List α} {x : α} (hx : x ∈ stepBy step items) : x ∈ items := by
  obtain ⟨i, _, hx⟩ := List.mem_flatMap.mp hx
  exact List.mem_of_mem_drop (List.mem_of_mem_take hx)

/-- What is in the audio all has a property: the line itself, and what the samples come from. -/
structure CallAudio.All (arith : Arithmetic α) (p : α → Prop) (audio : CallAudio α) : Prop where
  line : ∀ x ∈ audio.line, p x
  samples : FromWindows arith p audio.samples

variable {audio : CallAudio α}

theorem CallAudio.All.imp (hall : audio.All arith p) (hpq : ∀ x, p x → q x) : audio.All arith q :=
  ⟨fun x hx ↦ hpq x (hall.line x hx), hall.samples.imp hpq⟩

theorem CallAudio.all_new (hzero : p arith.zero) : (CallAudio.new arith).All arith p := by
  refine ⟨fun x hx ↦ ?_, fromWindows_nil⟩
  rw [List.eq_of_mem_replicate hx]
  exact hzero

theorem CallAudio.All.push (hall : audio.All arith p) {input : List α} (hinput : ∀ x ∈ input, p x) :
    (audio.push arith input).All arith p := by
  have hline : ∀ x ∈ audio.line ++ input, p x := by
    intro x hx
    exact (List.mem_append.mp hx).elim (hall.line x) (hinput x)
  refine ⟨fun x hx ↦ hline x (List.mem_of_mem_drop hx), ?_⟩
  obtain ⟨old, hold, hwindows⟩ := hall.samples
  let room := maxCallSamples - audio.samples.length
  refine ⟨old ++ (windows (audio.line ++ input)).take room, ?_, fun window hwindow x hx ↦ ?_⟩
  · have hnew : (((windows (audio.line ++ input)).map arith.dot).take room).map arith.toI16 =
        ((windows (audio.line ++ input)).take room).map fun window ↦ arith.toI16 (arith.dot window) := by
      rw [List.map_take, List.map_take, List.map_map]
      rfl
    rw [List.map_append, ← hold, ← hnew]
    rfl
  · rcases List.mem_append.mp hwindow with hbefore | hnow
    · exact hwindows window hbefore x hx
    · exact hline x (mem_of_mem_windows (List.mem_of_mem_take hnow) hx)

theorem CallAudio.All.pushSamples (hall : audio.All arith p) (channels : ℕ) {samples : List α}
    (hsamples : ∀ x ∈ samples, p x) : (audio.pushSamples arith channels samples).All arith p := by
  have hfed : ({ audio with fed := audio.fed || !samples.isEmpty } : CallAudio α).All arith p :=
    ⟨hall.line, hall.samples⟩
  rw [CallAudio.pushSamples]
  split_ifs with hmono
  · exact hfed.push hsamples
  · exact hfed.push fun x hx ↦ hsamples x (mem_of_mem_stepBy hx)

theorem CallAudio.All.pushSilence (hall : audio.All arith p) (hzero : p arith.zero) (frames : ℕ) :
    (audio.pushSilence arith frames).All arith p := by
  rw [CallAudio.pushSilence]
  split_ifs with hpos
  · apply hall.push
    intro x hx
    rw [List.eq_of_mem_replicate hx]
    exact hzero
  · exact hall

theorem CallAudio.fed_pushSilence (audio : CallAudio α) (frames : ℕ) :
    (audio.pushSilence arith frames).fed = audio.fed := by
  rw [CallAudio.pushSilence]
  split_ifs
  · rfl
  · rfl

theorem CallAudio.fed_pushSamples (audio : CallAudio α) (channels : ℕ) (samples : List α) :
    (audio.pushSamples arith channels samples).fed = (audio.fed || !samples.isEmpty) := by
  rw [CallAudio.pushSamples]
  split_ifs
  · rfl
  · rfl

/-! ## What is kept of a call -/

/-- A sample that is a zero or came in after the last encrypted frame. -/
def After (arith : Arithmetic α) (tag : α → ℕ) (history : History) (x : α) : Prop :=
  x = arith.zero ∨ ∀ event, history.lastEncrypted = some event → event < tag x

/-- The audio of a call is from after its last encrypted frame, unless it was late; then there is none. -/
structure ActiveCall.Kept (arith : Arithmetic α) (tag : α → ℕ) (bound : ℕ) (call : ActiveCall α F) : Prop where
  clean : call.history.late = false → call.audio.All arith (After arith tag call.history)
  late : call.history.late = true → call.audio.samples = []
  unfed : call.audio.fed = false → call.audio.All arith (· = arith.zero)
  noted : ∀ event, call.history.lastEncrypted = some event → event < bound

variable {tag} {bound : ℕ} {call : ActiveCall α F} {env : Surroundings F}

theorem ActiveCall.Kept.mono (hkept : call.Kept arith tag bound) : call.Kept arith tag (bound + 1) :=
  ⟨hkept.clean, hkept.late, hkept.unfed, fun event hevent ↦ Nat.lt_succ_of_lt (hkept.noted event hevent)⟩

theorem ActiveCall.kept_new (mode : String) (freqHz : F) (frame : Option DvFrame) (startedAt : ℤ) :
    (ActiveCall.new arith env mode freqHz frame startedAt).Kept arith tag bound := by
  refine ⟨fun _ ↦ CallAudio.all_new (Or.inl rfl), fun h ↦ ?_, fun _ ↦ CallAudio.all_new rfl, fun event h ↦ ?_⟩
  · cases h
  · cases h

theorem ActiveCall.Kept.continued (hkept : call.Kept arith tag bound) :
    (call.continued arith env).Kept arith tag bound := by
  refine ⟨fun _ ↦ CallAudio.all_new (Or.inl rfl), fun h ↦ ?_, fun _ ↦ CallAudio.all_new rfl, hkept.noted⟩
  cases h

/-- A block that comes in goes behind every encrypted frame that was merged before it. -/
theorem after_of_tag {history : History} (hnoted : ∀ event, history.lastEncrypted = some event → event < bound)
    {x : α} (hx : tag x = bound) : After arith tag history x :=
  Or.inr fun event hevent ↦ by rw [hx]; exact hnoted event hevent

theorem ActiveCall.Kept.pushSamples (hkept : call.Kept arith tag bound) (hlate : call.history.late = false)
    (channels : ℕ) {samples : List α}
    (hsamples : ∀ x ∈ samples, tag x = bound) :
    ({ call with audio := call.audio.pushSamples arith channels samples } : ActiveCall α F).Kept arith tag
      bound := by
  refine ⟨fun _ ↦ ?_, fun h ↦ ?_, fun hfed ↦ ?_, hkept.noted⟩
  · exact (hkept.clean hlate).pushSamples channels fun x hx ↦ after_of_tag hkept.noted (hsamples x hx)
  · exact absurd (hlate.symm.trans h) (by decide)
  · rw [CallAudio.fed_pushSamples, Bool.or_eq_false_iff, Bool.not_eq_false', List.isEmpty_iff] at hfed
    apply (hkept.unfed hfed.1).pushSamples
    rw [hfed.2]
    exact fun x hx ↦ absurd hx List.not_mem_nil

theorem ActiveCall.Kept.pushSilence (hkept : call.Kept arith tag bound) (hlate : call.history.late = false)
    (frames : ℕ) :
    ({ call with audio := call.audio.pushSilence arith frames } : ActiveCall α F).Kept arith tag bound := by
  refine ⟨fun _ ↦ (hkept.clean hlate).pushSilence (Or.inl rfl) frames, fun h ↦ ?_, fun hfed ↦ ?_, hkept.noted⟩
  · exact absurd (hlate.symm.trans h) (by decide)
  · rw [CallAudio.fed_pushSilence] at hfed
    exact (hkept.unfed hfed).pushSilence rfl frames

theorem ActiveCall.Kept.pushBlock (hkept : call.Kept arith tag bound) (hlate : call.history.late = false)
    {block : PcmBlock α}
    (hblock : ∀ samples, block.payload = .samples samples → ∀ x ∈ samples, tag x = bound) :
    ({ call with audio := call.audio.pushBlock arith block } : ActiveCall α F).Kept arith tag bound := by
  cases hpayload : block.payload with
  | samples samples =>
    rw [CallAudio.pushBlock, hpayload]
    exact hkept.pushSamples hlate block.channels (hblock samples hpayload)
  | silence frames =>
    rw [CallAudio.pushBlock, hpayload]
    exact hkept.pushSilence hlate frames

/-- The call as the tracker leaves it when a frame came for it. -/
def ActiveCall.told (event : ℕ) (env : Surroundings F) (incoming : DvFrame) (call : ActiveCall α F) :
    ActiveCall α F :=
  let call := (call.merge event incoming).heard env
  if call.encrypted then { call with audio := { call.audio with samples := [] } } else call

theorem CallAudio.All.clear (hall : audio.All arith p) :
    ({ audio with samples := [] } : CallAudio α).All arith p :=
  ⟨hall.line, fromWindows_nil⟩

theorem ActiveCall.Kept.clear (hkept : call.Kept arith tag bound) :
    ({ call with audio := { call.audio with samples := [] } } : ActiveCall α F).Kept arith tag bound :=
  ⟨fun hlate ↦ (hkept.clean hlate).clear, fun _ ↦ rfl, fun hfed ↦ (hkept.unfed hfed).clear, hkept.noted⟩

/-- A frame leaves a call as it has to be. -/
theorem ActiveCall.Kept.told {event : ℕ} (hkept : call.Kept arith tag (event + 1)) (incoming : DvFrame) :
    (call.told event env incoming).Kept arith tag (event + 1) := by
  rw [ActiveCall.told]
  by_cases hnoted : call.frame.isSome ∧ incoming.encrypted = some true
  · -- What is stored goes; what the decimator holds is zeros, or the call was late.
    obtain ⟨hframe, hreports⟩ := hnoted
    obtain ⟨current, hframe⟩ := Option.isSome_iff_exists.mp hframe
    have hmerge : call.merge event incoming =
        { call with
          frame := some (mergeFrame current incoming)
          history := { lastEncrypted := some event, late := call.audio.fed } } := by
      rw [ActiveCall.merge, hframe]
      dsimp only
      rw [if_pos hreports]
    have hencrypted : ((call.merge event incoming).heard env).encrypted = true := by
      have hmerged : (mergeFrame current incoming).encrypted = some true := by
        rw [mergeFrame, hreports]
        rfl
      rw [hmerge]
      exact decide_eq_true hmerged
    dsimp only
    rw [if_pos hencrypted, hmerge]
    refine ⟨fun hlate ↦ ?_, fun _ ↦ rfl, fun hfed ↦ (hkept.unfed hfed).clear, fun other hother ↦ ?_⟩
    · exact ((hkept.unfed hlate).clear).imp fun x hx ↦ Or.inl hx
    · obtain rfl := Option.some.inj hother
      exact Nat.lt_succ_self _
  · have hsame : (call.merge event incoming).audio = call.audio ∧
        (call.merge event incoming).history = call.history := by
      rw [ActiveCall.merge]
      cases hframe : call.frame with
      | none => exact ⟨rfl, rfl⟩
      | some current =>
        rw [hframe, Option.isSome_some, eq_self_iff_true, true_and] at hnoted
        exact ⟨rfl, if_neg hnoted⟩
    have hmerged : ((call.merge event incoming).heard env).Kept arith tag (event + 1) := by
      have hkept' := hkept
      constructor
      · change (call.merge event incoming).history.late = false →
          (call.merge event incoming).audio.All arith (After arith tag (call.merge event incoming).history)
        rw [hsame.1, hsame.2]
        exact hkept.clean
      · change (call.merge event incoming).history.late = true → (call.merge event incoming).audio.samples = []
        rw [hsame.1, hsame.2]
        exact hkept.late
      · change (call.merge event incoming).audio.fed = false →
          (call.merge event incoming).audio.All arith (· = arith.zero)
        rw [hsame.1]
        exact hkept.unfed
      · change ∀ other, (call.merge event incoming).history.lastEncrypted = some other → other < event + 1
        rw [hsame.2]
        exact hkept.noted
    dsimp only
    split_ifs
    · exact hmerged.clear
    · exact hmerged

/-! ## What is published -/

/-- The audio of a published call is from after its last encrypted frame. -/
structure Published.Clean (arith : Arithmetic α) (tag : α → ℕ) (published : Published F) : Prop where
  audio : ∀ samples, published.audio = some samples →
    FromWindows arith (After arith tag published.history) samples

theorem ActiveCall.Kept.intoNewCall (hkept : call.Kept arith tag bound) (key : CallKey) :
    (call.intoNewCall key).Clean arith tag := by
  refine ⟨fun samples hsamples ↦ ?_⟩
  rw [ActiveCall.intoNewCall] at hsamples ⊢
  dsimp only at hsamples ⊢
  split_ifs at hsamples with haudio
  · have hlate : call.history.late = false := by
      cases hlate : call.history.late with
      | false => rfl
      | true =>
        rw [hkept.late hlate, Bool.and_eq_true] at haudio
        exact absurd haudio.2 (by decide)
    rw [← Option.some.inj hsamples]
    exact (hkept.clean hlate).samples

/-! ## The tracker -/

structure Tracker.Kept (arith : Arithmetic α) (tag : α → ℕ) (bound : ℕ) (tracker : Tracker α F) : Prop where
  active : ∀ entry ∈ tracker.active, entry.2.Kept arith tag bound
  published : ∀ published ∈ tracker.published, published.Clean arith tag

namespace Tracker

variable {tracker : Tracker α F} {key other : CallKey}

theorem mem_of_get (hget : tracker.get key = some call) : (key, call) ∈ tracker.active := by
  obtain ⟨⟨found, _⟩, hfound, rfl⟩ := Option.map_eq_some_iff.mp hget
  have hkey := List.find?_some hfound
  rw [decide_eq_true_eq] at hkey
  obtain rfl : found = key := hkey
  exact List.mem_of_find?_eq_some hfound

theorem Kept.get (hkept : tracker.Kept arith tag bound) (hget : tracker.get key = some call) :
    call.Kept arith tag bound :=
  hkept.active (key, call) (mem_of_get hget)

theorem Kept.remove (hkept : tracker.Kept arith tag bound) (key : CallKey) :
    (tracker.remove key).Kept arith tag bound :=
  ⟨fun entry hentry ↦ hkept.active entry (List.mem_of_mem_filter hentry), hkept.published⟩

theorem Kept.insert (hkept : tracker.Kept arith tag bound) (key : CallKey) (hcall : call.Kept arith tag bound) :
    (tracker.insert key call).Kept arith tag bound := by
  refine ⟨fun entry hentry ↦ ?_, hkept.published⟩
  rcases List.mem_cons.mp hentry with rfl | hold
  · exact hcall
  · exact (hkept.remove key).active entry hold

theorem Kept.finish (hkept : tracker.Kept arith tag bound) (key : CallKey) :
    (tracker.finish env key).Kept arith tag bound := by
  rw [Tracker.finish]
  cases hget : tracker.get key with
  | none => exact hkept
  | some call =>
    dsimp only
    split_ifs with halive
    · refine ⟨(hkept.remove key).active, fun published hpublished ↦ ?_⟩
      rcases List.mem_append.mp hpublished with hold | hnew
      · exact hkept.published published hold
      · obtain rfl := List.mem_singleton.mp hnew
        exact (hkept.get hget).intoNewCall key
    · exact hkept.remove key

theorem Kept.rollOver (hkept : tracker.Kept arith tag bound) (key : CallKey) :
    (tracker.rollOver arith env key).Kept arith tag bound := by
  rw [Tracker.rollOver]
  cases hget : tracker.get key with
  | none => exact hkept
  | some call => exact (hkept.finish key).insert key (hkept.get hget).continued

theorem Kept.foldl {T : Type} {step : Tracker α F → T → Tracker α F}
    (hstep : ∀ tracker item, tracker.Kept arith tag bound → (step tracker item).Kept arith tag bound)
    (items : List T) (hkept : tracker.Kept arith tag bound) : (items.foldl step tracker).Kept arith tag bound := by
  induction items generalizing tracker with
  | nil => exact hkept
  | cons item items ih => exact ih (hstep tracker item hkept)

/-! ## Frames -/

theorem events_finish (tracker : Tracker α F) (key : CallKey) :
    (tracker.finish env key).events = tracker.events := by
  rw [Tracker.finish]
  cases tracker.get key with
  | none => rfl
  | some call =>
    dsimp only
    split_ifs
    · rfl
    · rfl

theorem get_finish_self (tracker : Tracker α F) (key : CallKey) : (tracker.finish env key).get key = none := by
  have hremove : (tracker.remove key).get key = none := by
    rw [Tracker.get, Option.map_eq_none_iff, List.find?_eq_none]
    intro entry hentry
    have hkept := List.of_mem_filter hentry
    simpa using hkept
  rw [Tracker.finish]
  cases hget : tracker.get key with
  | none => exact hget
  | some call =>
    dsimp only
    split_ifs
    · exact hremove
    · exact hremove

/-- A frame goes into the call there is if it is one of it, and else into a new one. -/
theorem frame_cases (arith : Arithmetic α) (env : Surroundings F) (record : DecodedRecord F) (incoming : DvFrame) (tracker : Tracker α F) (key : CallKey) :
    (∃ call, tracker.get key = some call ∧
      tracker.frame arith env record incoming key =
        tracker.insert key (call.told tracker.events env incoming)) ∨
    ∃ base : Tracker α F, (base = tracker ∨ base = tracker.finish env key) ∧
      tracker.frame arith env record incoming key =
        base.insert key ((ActiveCall.new arith env incoming.mode record.freqHz (some incoming)
          (record.time.getD env.wall)).told tracker.events env incoming) := by
  by_cases hsplit : (tracker.get key).any fun call ↦ call.frame.any fun current ↦ !sameCall current incoming
  · right
    refine ⟨tracker.finish env key, Or.inr rfl, ?_⟩
    rw [Tracker.frame, if_pos hsplit]
    dsimp only
    rw [get_finish_self, events_finish]
    rfl
  · cases hget : tracker.get key with
    | none =>
      right
      refine ⟨tracker, Or.inl rfl, ?_⟩
      rw [Tracker.frame, if_neg hsplit]
      dsimp only
      rw [hget]
      rfl
    | some call =>
      left
      refine ⟨call, rfl, ?_⟩
      rw [Tracker.frame, if_neg hsplit]
      dsimp only
      rw [hget]
      rfl

theorem events_frame (record : DecodedRecord F) (incoming : DvFrame) (tracker : Tracker α F) (key : CallKey) :
    (tracker.frame arith env record incoming key).events = tracker.events := by
  rcases frame_cases arith env record incoming tracker key with
    ⟨call, _, hframe⟩ | ⟨base, hbase, hframe⟩
  · rw [hframe]
    rfl
  · have hevents : base.events = tracker.events := by
      rcases hbase with rfl | rfl
      · rfl
      · exact events_finish tracker key
    rw [hframe]
    exact hevents

theorem Kept.frame {event : ℕ} (hkept : tracker.Kept arith tag (event + 1)) (hevent : tracker.events = event)
    (record : DecodedRecord F) (incoming : DvFrame) (key : CallKey) :
    (tracker.frame arith env record incoming key).Kept arith tag (event + 1) := by
  rcases frame_cases arith env record incoming tracker key with
    ⟨call, hget, hframe⟩ | ⟨base, hbase, hframe⟩
  · rw [hframe, hevent]
    exact hkept.insert key ((hkept.get hget).told incoming)
  · have hold : base.Kept arith tag (event + 1) := by
      rcases hbase with rfl | rfl
      · exact hkept
      · exact hkept.finish key
    rw [hframe, hevent]
    exact hold.insert key ((ActiveCall.kept_new _ _ _ _).told incoming)

theorem Kept.frames {event : ℕ} (hkept : tracker.Kept arith tag (event + 1)) (hevent : tracker.events = event)
    (record : DecodedRecord F) (incoming : DvFrame) (keys : List CallKey) :
    (keys.foldl (Tracker.frame arith env record incoming) tracker).Kept arith tag (event + 1) := by
  induction keys generalizing tracker with
  | nil => exact hkept
  | cons key keys ih =>
    apply ih
    · exact hkept.frame hevent record incoming key
    · rw [events_frame, hevent]

theorem Kept.record (hkept : tracker.Kept arith tag (tracker.events + 1)) (record : DecodedRecord F) :
    (tracker.record arith env record).Kept arith tag (tracker.events + 1) := by
  rw [Tracker.record]
  cases record.origin with
  | true => exact hkept
  | false =>
    rw [if_neg Bool.false_ne_true]
    cases record.dv with
    | none => exact hkept
    | some incoming =>
      dsimp only
      cases carriesCall incoming with
      | true => exact hkept.frames rfl record incoming _
      | false =>
        apply Kept.foldl (fun tracker key hkept ↦ ?_) _ hkept
        rw [if_neg Bool.false_ne_true]
        split_ifs
        · exact hkept.finish key
        · exact hkept

/-! ## Blocks and the other events -/

theorem mem_finish {entry : CallKey × ActiveCall α F} (hentry : entry ∈ (tracker.finish env key).active) :
    entry ∈ tracker.active := by
  rw [Tracker.finish] at hentry
  cases hget : tracker.get key with
  | none =>
    rw [hget] at hentry
    exact hentry
  | some call =>
    rw [hget] at hentry
    dsimp only at hentry
    split_ifs at hentry
    · exact List.mem_of_mem_filter hentry
    · exact List.mem_of_mem_filter hentry

theorem mem_insert {entry : CallKey × ActiveCall α F} (hentry : entry ∈ (tracker.insert key call).active) :
    entry = (key, call) ∨ entry ∈ tracker.active :=
  (List.mem_cons.mp hentry).imp id fun hold ↦ List.mem_of_mem_filter hold

/-- A call that continues another is not late. -/
theorem mem_rollOver {entry : CallKey × ActiveCall α F}
    (hentry : entry ∈ (tracker.rollOver arith env key).active) (hlate : entry.2.history.late = true) :
    entry ∈ tracker.active := by
  rw [Tracker.rollOver] at hentry
  cases hget : tracker.get key with
  | none =>
    rw [hget] at hentry
    exact hentry
  | some call =>
    rw [hget] at hentry
    rcases mem_insert hentry with rfl | hold
    · cases hlate
    · exact mem_finish hold

/-- Whether nothing that is late takes a block: neither a call of these keys nor, where frames gate the
channel, one of the channel that is not encrypted. -/
structure Sealed (tracker : Tracker α F) (keys : List CallKey) (gated : Bool) (deviceSet channel : ℕ) : Prop where
  keys : ∀ entry ∈ tracker.active, entry.2.history.late = true → entry.1 ∉ keys
  channel : gated = true → ∀ entry ∈ tracker.active, entry.2.history.late = true →
    entry.1.on deviceSet channel = true → entry.2.encrypted = true

variable {keys : List CallKey} {gated : Bool} {deviceSet channel : ℕ} {block : PcmBlock α}

/-- What is late in one tracker is in another, or is a call of that with as much of a frame. -/
theorem Sealed.of_stems {after : Tracker α F} (hsealed : tracker.Sealed keys gated deviceSet channel)
    (hstems : ∀ entry ∈ after.active, entry.2.history.late = true →
      ∃ old ∈ tracker.active, old.1 = entry.1 ∧ old.2.history.late = true ∧ old.2.frame = entry.2.frame) :
    after.Sealed keys gated deviceSet channel := by
  constructor
  · intro entry hentry hlate
    obtain ⟨old, hold, hkey, holdLate, _⟩ := hstems entry hentry hlate
    rw [← hkey]
    exact hsealed.keys old hold holdLate
  · intro hgated entry hentry hlate hon
    obtain ⟨old, hold, hkey, holdLate, hframe⟩ := hstems entry hentry hlate
    rw [← hkey] at hon
    have hencrypted := hsealed.channel hgated old hold holdLate hon
    rw [ActiveCall.encrypted, hframe] at hencrypted
    exact hencrypted

theorem Kept.framedPcm (hkept : tracker.Kept arith tag bound)
    (hsealed : tracker.Sealed keys true deviceSet channel)
    (hblock : ∀ samples, block.payload = .samples samples → ∀ x ∈ samples, tag x = bound) :
    (tracker.framedPcm arith env deviceSet channel block).Kept arith tag bound := by
  rw [Tracker.framedPcm]
  apply Kept.foldl fun tracker key hkept ↦ hkept.rollOver key
  refine ⟨fun entry hentry ↦ ?_, hkept.published⟩
  obtain ⟨old, hold, rfl⟩ := List.mem_map.mp hentry
  have hcall := hkept.active old hold
  have hheard : ({ old.2 with lastActivity := env.instant } : ActiveCall α F).Kept arith tag bound :=
    ⟨hcall.clean, hcall.late, hcall.unfed, hcall.noted⟩
  split_ifs with hon
  · exact hcall
  · dsimp only
    split_ifs with hencrypted
    · exact hheard
    · have hlate : old.2.history.late = false := by
        rw [Bool.not_eq_true', Bool.not_eq_false, Bool.and_eq_true] at hon
        by_contra hlate
        exact hencrypted (hsealed.channel rfl old hold (eq_true_of_ne_false hlate) hon.1)
      exact hheard.pushBlock hlate hblock

/-- The call that a squelched block is for: the one there is, or one that is opened. -/
theorem opened_cases (arith : Arithmetic α) (env : Surroundings F) (tracker : Tracker α F) (key : CallKey)
    {call : ActiveCall α F}
    (hcall : ((tracker.get key).orElse fun _ ↦ (tuning env key).map fun tuned ↦
      ActiveCall.new arith env tuned.1 tuned.2 none env.wall) = some call) :
    (key, call) ∈ tracker.active ∨
      ∃ mode freqHz, call = ActiveCall.new arith env mode freqHz none env.wall := by
  cases hget : tracker.get key with
  | some old =>
    rw [hget] at hcall
    obtain rfl := Option.some.inj hcall
    exact Or.inl (mem_of_get hget)
  | none =>
    rw [hget] at hcall
    obtain ⟨tuned, _, rfl⟩ := Option.map_eq_some_iff.mp hcall
    exact Or.inr ⟨tuned.1, tuned.2, rfl⟩

/-- A squelched block leaves late only what was. -/
theorem stems_squelchedPcm {entry : CallKey × ActiveCall α F}
    (hentry : entry ∈ (squelchedPcm arith env block tracker key).active) (hlate : entry.2.history.late = true) :
    ∃ old ∈ tracker.active, old.1 = entry.1 ∧ old.2.history.late = true ∧ old.2.frame = entry.2.frame := by
  rw [Tracker.squelchedPcm] at hentry
  cases hpayload : block.payload with
  | samples samples =>
    rw [hpayload] at hentry
    dsimp only at hentry
    have hcases := fun call ↦ @opened_cases _ _ arith env tracker key call
    generalize ((tracker.get key).orElse fun _ ↦ (tuning env key).map fun tuned ↦
      ActiveCall.new arith env tuned.1 tuned.2 none env.wall) = opened at hcases hentry
    cases opened with
    | none => exact ⟨entry, hentry, rfl, hlate, rfl⟩
    | some call =>
      have hinsert : entry ∈ (tracker.insert key (ActiveCall.heard env { call with
          quietFrames := 0
          audio := (call.audio.pushSilence arith call.quietFrames).pushSamples arith block.channels
            samples })).active := by
        dsimp only at hentry
        split_ifs at hentry
        · exact mem_rollOver hentry hlate
        · exact hentry
      rcases mem_insert hinsert with rfl | hold
      · rcases hcases call rfl with hmem | ⟨mode, freqHz, rfl⟩
        · exact ⟨(key, call), hmem, rfl, hlate, rfl⟩
        · cases hlate
      · exact ⟨entry, hold, rfl, hlate, rfl⟩
  | silence frames =>
    rw [hpayload] at hentry
    dsimp only at hentry
    cases hget : tracker.get key with
    | none =>
      rw [hget] at hentry
      exact ⟨entry, hentry, rfl, hlate, rfl⟩
    | some call =>
      rw [hget] at hentry
      have hinsert : entry ∈ (tracker.insert key { call with
          lastActivity := env.instant
          quietFrames := call.quietFrames + frames }).active := by
        dsimp only at hentry
        split_ifs at hentry
        · exact mem_finish hentry
        · exact hentry
      rcases mem_insert hinsert with rfl | hold
      · exact ⟨(key, call), mem_of_get hget, rfl, hlate, rfl⟩
      · exact ⟨entry, hold, rfl, hlate, rfl⟩

theorem Kept.squelchedPcm (hkept : tracker.Kept arith tag bound)
    (hlate : ∀ samples, block.payload = .samples samples → ∀ entry ∈ tracker.active,
      entry.2.history.late = true → entry.1 ≠ key)
    (hblock : ∀ samples, block.payload = .samples samples → ∀ x ∈ samples, tag x = bound) :
    (Tracker.squelchedPcm arith env block tracker key).Kept arith tag bound := by
  rw [Tracker.squelchedPcm]
  cases hpayload : block.payload with
  | samples samples =>
    dsimp only
    have hopened : ∀ call, ((tracker.get key).orElse fun _ ↦ (tuning env key).map fun tuned ↦
        ActiveCall.new arith env tuned.1 tuned.2 none env.wall) = some call →
          call.Kept arith tag bound ∧ call.history.late = false := by
      intro call hcall
      rcases opened_cases arith env tracker key hcall with hmem | ⟨mode, freqHz, rfl⟩
      · refine ⟨hkept.active _ hmem, ?_⟩
        by_contra hnot
        exact hlate samples hpayload _ hmem (eq_true_of_ne_false hnot) rfl
      · exact ⟨ActiveCall.kept_new _ _ _ _, rfl⟩
    generalize ((tracker.get key).orElse fun _ ↦ (tuning env key).map fun tuned ↦
      ActiveCall.new arith env tuned.1 tuned.2 none env.wall) = opened at hopened ⊢
    cases opened with
    | none => exact hkept
    | some call =>
      obtain ⟨hcall, hfresh⟩ := hopened call rfl
      have hpushed := (hcall.pushSilence hfresh call.quietFrames).pushSamples hfresh block.channels
        (hblock samples hpayload)
      have hheard : (ActiveCall.heard env { call with
          quietFrames := 0
          audio := (call.audio.pushSilence arith call.quietFrames).pushSamples arith block.channels
            samples }).Kept arith tag bound :=
        ⟨hpushed.clean, hpushed.late, hpushed.unfed, hpushed.noted⟩
      have hinsert := hkept.insert key hheard
      dsimp only
      split_ifs
      · exact hinsert.rollOver key
      · exact hinsert
  | silence frames =>
    dsimp only
    cases hget : tracker.get key with
    | none => exact hkept
    | some call =>
      have hcall := hkept.get hget
      have hquiet : ({ call with
          lastActivity := env.instant
          quietFrames := call.quietFrames + frames } : ActiveCall α F).Kept arith tag bound :=
        ⟨hcall.clean, hcall.late, hcall.unfed, hcall.noted⟩
      have hinsert := hkept.insert key hquiet
      dsimp only
      split_ifs
      · exact hinsert.finish key
      · exact hinsert

/-- The keys of the squelched bindings, if the block has samples for them. -/
def squelchedKeys (tracker : Tracker α F) (deviceSet channel : ℕ) (block : PcmBlock α) : List CallKey :=
  match block.payload with
  | .samples _ =>
      ((tracker.bindings deviceSet channel).filter (·.gate = .squelch)).map (CallKey.of · none)
  | .silence _ => []

/-- Whether a block of PCM finds no call that is late to take it. -/
def SealedAt (tracker : Tracker α F) (deviceSet channel : ℕ) (block : PcmBlock α) : Prop :=
  tracker.Sealed (tracker.squelchedKeys deviceSet channel block)
    ((tracker.bindings deviceSet channel).any (·.gate = .frames)) deviceSet channel

theorem Kept.squelched {watched : List CallKey} (hkept : tracker.Kept arith tag bound)
    (hsealed : tracker.Sealed watched gated deviceSet channel)
    (hblock : ∀ samples, block.payload = .samples samples → ∀ x ∈ samples, tag x = bound)
    (hkeys : ∀ samples, block.payload = .samples samples → ∀ key ∈ keys, key ∈ watched) :
    (keys.foldl (Tracker.squelchedPcm arith env block) tracker).Kept arith tag bound ∧
      (keys.foldl (Tracker.squelchedPcm arith env block) tracker).Sealed watched gated deviceSet channel := by
  induction keys generalizing tracker with
  | nil => exact ⟨hkept, hsealed⟩
  | cons key keys ih =>
    apply ih
    · apply hkept.squelchedPcm _ hblock
      intro samples hsamples entry hentry hlate hkey
      apply hsealed.keys entry hentry hlate
      rw [hkey]
      exact hkeys samples hsamples key List.mem_cons_self
    · exact hsealed.of_stems fun entry hentry hlate ↦ stems_squelchedPcm hentry hlate
    · exact fun samples hsamples other hother ↦ hkeys samples hsamples other (List.mem_cons_of_mem key hother)

theorem Kept.pcm (hkept : tracker.Kept arith tag bound) (hsealed : tracker.SealedAt deviceSet channel block)
    (hblock : ∀ samples, block.payload = .samples samples → ∀ x ∈ samples, tag x = bound) :
    (tracker.pcm arith env deviceSet channel block).Kept arith tag bound := by
  have hkeys : ∀ samples, block.payload = .samples samples →
      ∀ key ∈ ((tracker.bindings deviceSet channel).filter (·.gate = .squelch)).map (CallKey.of · none),
        key ∈ tracker.squelchedKeys deviceSet channel block := by
    intro samples hsamples key hkey
    rw [squelchedKeys, hsamples]
    exact hkey
  obtain ⟨hsquelched, hstill⟩ := @Kept.squelched _ _ _ _ _ env _ _ _ _ _ _ _ hkept hsealed hblock hkeys
  rw [Tracker.pcm]
  split_ifs with hframes
  · rw [hframes] at hstill
    exact hsquelched.framedPcm hstill hblock
  · exact hsquelched

theorem Kept.rebind (hkept : tracker.Kept arith tag bound) (bindings : ℕ → ℕ → List CallBinding) :
    (tracker.rebind env bindings).Kept arith tag bound := by
  rw [Tracker.rebind]
  apply Kept.foldl fun tracker key hkept ↦ hkept.finish key
  exact ⟨hkept.active, hkept.published⟩

theorem Kept.audioError (hkept : tracker.Kept arith tag bound) (concerns : CallKey → Bool) (error : String) :
    (tracker.audioError concerns error).Kept arith tag bound := by
  refine ⟨fun entry hentry ↦ ?_, hkept.published⟩
  obtain ⟨old, hold, rfl⟩ := List.mem_map.mp hentry
  have hcall := hkept.active old hold
  split_ifs
  · exact ⟨hcall.clean, hcall.late, hcall.unfed, hcall.noted⟩
  · exact hcall

theorem Kept.mono (hkept : tracker.Kept arith tag bound) : tracker.Kept arith tag (bound + 1) :=
  ⟨fun entry hentry ↦ (hkept.active entry hentry).mono, hkept.published⟩

/-! ## Runs -/

/-- The tags of a block's samples are the number of the event. -/
def TaggedWith (tag : α → ℕ) (event : ℕ) (happening : Surroundings F × Event α F) : Prop :=
  ∀ deviceSet channel block samples, happening.2 = .pcm deviceSet channel block →
    block.payload = .samples samples → ∀ x ∈ samples, tag x = event

/-- An event brings a block to no call that is late. -/
def SealedFrom (tracker : Tracker α F) (happening : Surroundings F × Event α F) : Prop :=
  ∀ deviceSet channel block, happening.2 = .pcm deviceSet channel block → tracker.SealedAt deviceSet channel block

theorem Kept.step (hkept : tracker.Kept arith tag tracker.events) {happening : Surroundings F × Event α F}
    (htagged : TaggedWith tag tracker.events happening) (hsealed : tracker.SealedFrom happening) :
    (tracker.step arith happening).Kept arith tag (tracker.events + 1) := by
  have hhandle : (tracker.handle arith happening.1 happening.2).Kept arith tag (tracker.events + 1) := by
    cases hevent : happening.2 with
    | record record => exact hkept.mono.record record
    | pcm deviceSet channel block =>
      exact (hkept.pcm (hsealed deviceSet channel block hevent) fun samples hsamples ↦
        htagged deviceSet channel block samples hevent hsamples).mono
    | rebind bindings => exact (hkept.rebind bindings).mono
    | audioError deviceSet channel error => exact (hkept.audioError (·.on deviceSet channel) error).mono
    | lost error => exact (hkept.audioError (fun _ ↦ true) error).mono
    | expireIdle => exact (Kept.foldl (fun _ key hkept ↦ hkept.finish key) _ hkept).mono
    | finishAll => exact (Kept.foldl (fun _ key hkept ↦ hkept.finish key) _ hkept).mono
  exact ⟨hhandle.active, hhandle.published⟩

end Tracker

theorem run_append (happenings : List (Surroundings F × Event α F)) (happening : Surroundings F × Event α F) :
    run arith (happenings ++ [happening]) = (run arith happenings).step arith happening := by
  rw [run, run, List.foldl_append]
  rfl

/-- Every block is tagged with its number. -/
def Tagged (tag : α → ℕ) (happenings : List (Surroundings F × Event α F)) : Prop :=
  ∀ before happening later, happenings = before ++ happening :: later →
    Tracker.TaggedWith tag before.length happening

/-- No block of the run comes to a call that is late. -/
def AllSealed (arith : Arithmetic α) (happenings : List (Surroundings F × Event α F)) : Prop :=
  ∀ before happening later, happenings = before ++ happening :: later →
    (run arith before).SealedFrom happening

theorem events_run (happenings : List (Surroundings F × Event α F)) :
    (run arith happenings).events = happenings.length := by
  induction happenings using List.reverseRecOn with
  | nil => rfl
  | append_singleton happenings happening ih =>
    rw [run_append, List.length_append, ← ih]
    rfl

theorem kept_run (happenings : List (Surroundings F × Event α F)) (htagged : Tagged tag happenings)
    (hsealed : AllSealed arith happenings) :
    (run arith happenings).Kept arith tag happenings.length := by
  induction happenings using List.reverseRecOn with
  | nil => exact ⟨fun _ h ↦ absurd h List.not_mem_nil, fun _ h ↦ absurd h List.not_mem_nil⟩
  | append_singleton happenings happening ih =>
    have hbefore : (run arith happenings).Kept arith tag (run arith happenings).events := by
      rw [events_run]
      apply ih
      · intro before other later hsplit
        exact htagged before other (later ++ [happening]) (by rw [hsplit, List.append_assoc, List.cons_append])
      · intro before other later hsplit
        exact hsealed before other (later ++ [happening]) (by rw [hsplit, List.append_assoc, List.cons_append])
    have htag := htagged happenings happening [] rfl
    rw [← @events_run _ _ arith] at htag
    have hstep := hbefore.step htag (hsealed happenings happening [] rfl)
    rw [run_append, List.length_append, List.length_singleton]
    rw [events_run] at hstep
    exact hstep

/-- A call that is encrypted in the end is published without audio.  In a run in which no block comes to a call
whose decimator was fed before its last encrypted frame, what is stored of a call comes from blocks after that
frame. -/
theorem encrypted_audio_unstored {α F : Type} (arith : Arithmetic α) (tag : α → ℕ)
    (happenings : List (Surroundings F × Event α F)) :
    (∀ published ∈ (run arith happenings).published,
      published.call.frame.any (·.encrypted = some true) → published.audio = none) ∧
    (Tagged tag happenings → AllSealed arith happenings →
      ∀ published ∈ (run arith happenings).published, ∀ samples, published.audio = some samples →
        ∃ windows : List (List α),
          samples = windows.map (fun window ↦ arith.toI16 (arith.dot window)) ∧
            ∀ window ∈ windows, ∀ x ∈ window, x = arith.zero ∨
              ∀ event, published.history.lastEncrypted = some event → event < tag x) := by
  refine ⟨fun published _ ↦ published.dropped, fun htagged hsealed published hpublished ↦ ?_⟩
  exact ((kept_run happenings htagged hsealed).published published hpublished).audio

/-! ## Runs on one channel -/

/-- A filter of ones, over whole numbers. -/
def sums : Arithmetic ℤ where
  zero := 0
  dot := List.sum
  toI16 x := x

def quietly : Surroundings Unit where
  alive := true
  instant := 0
  wall := 0
  tuned _ _ := none

def framedChannel : Event ℤ Unit :=
  .rebind fun deviceSet channel ↦
    if deviceSet = 1 ∧ channel = 2 then [{ node := "trunk", deviceSet, channel, gate := .frames }] else []

def spoken (kind : DvFrameKind) (encrypted : Option Bool) : Event ℤ Unit :=
  .record { origin := false, deviceSet := 1, channel := 2, time := some 0, freqHz := (), dv := some {
    mode := "dmr", kind, slot := some 1, colorCode := some 3, source := some 1001, destination := some 91,
    groupCall := some true, encrypted, emergency := none } }

def samplesBlock (count : ℕ) (x : ℤ) : Event ℤ Unit :=
  .pcm 1 2 { channels := 1, payload := .samples (List.replicate count x) }

/-- An encrypted frame before any audio, and then a clear call. -/
def clearRun : List (Surroundings Unit × Event ℤ Unit) :=
  [framedChannel, spoken .voice (some true), spoken .voice (some false), samplesBlock 6 3, spoken .terminator none].map
    fun event ↦ (quietly, event)

/-- The only block of the run is its fourth event. -/
theorem block_clearRun {before later : List (Surroundings Unit × Event ℤ Unit)}
    {happening : Surroundings Unit × Event ℤ Unit} (hsplit : clearRun = before ++ happening :: later)
    {deviceSet channel : ℕ} {pcm : PcmBlock ℤ} (hpcm : happening.2 = .pcm deviceSet channel pcm) :
    before = clearRun.take 3 ∧ pcm.payload = .samples (List.replicate 6 3) := by
  have hget : clearRun[before.length]? = some happening := by
    rw [hsplit, List.getElem?_append_right le_rfl, Nat.sub_self, List.getElem?_cons_zero]
  have hbefore : before = clearRun.take before.length := by rw [hsplit, List.take_left]
  by_cases hlong : 5 ≤ before.length
  · rw [List.getElem?_eq_none hlong] at hget
    cases hget
  generalize before.length = place at hget hbefore hlong
  interval_cases place
  all_goals obtain rfl := Option.some.inj hget
  all_goals cases hpcm
  exact ⟨hbefore, rfl⟩

theorem encrypted_audio_unstored_clear :
    ∃ published ∈ (run sums clearRun).published, published.audio = some [3] ∧
      published.history.lastEncrypted = some 1 ∧
        ∃ windows : List (List ℤ), [3] = windows.map (fun window ↦ sums.toI16 (sums.dot window)) ∧
          ∀ window ∈ windows, ∀ x ∈ window, x = sums.zero ∨
            ∀ event, published.history.lastEncrypted = some event → event < x.toNat := by
  have hlist : (run sums clearRun).published.map (fun published ↦
      (published.audio, published.history.lastEncrypted)) = [(some [3], some 1)] := by
    decide +kernel
  obtain ⟨published, hpublished, hpair⟩ := List.mem_map.mp (hlist ▸ List.mem_cons_self)
  obtain ⟨haudio, hlast⟩ := Prod.mk.inj hpair
  have htagged : Tagged Int.toNat clearRun := by
    intro before happening later hsplit deviceSet channel pcm samples hpcm hsamples x hx
    obtain ⟨hbefore, hpayload⟩ := block_clearRun hsplit hpcm
    rw [hpayload] at hsamples
    rw [← PcmPayload.samples.inj hsamples] at hx
    rw [hbefore, List.eq_of_mem_replicate hx]
    rfl
  have hfresh : ((run sums (clearRun.take 3)).active.all fun entry ↦ !entry.2.history.late) := by
    decide +kernel
  have hsealed : AllSealed sums clearRun := by
    intro before happening later hsplit deviceSet channel pcm hpcm
    obtain ⟨hbefore, _⟩ := block_clearRun hsplit hpcm
    have hnone : ∀ entry ∈ (run sums before).active, entry.2.history.late ≠ true := by
      intro entry hentry
      rw [hbefore] at hentry
      have hentry := List.all_eq_true.mp hfresh entry hentry
      rw [Bool.not_eq_true'] at hentry
      rw [hentry]
      decide
    exact ⟨fun entry hentry hlate ↦ absurd hlate (hnone entry hentry),
      fun _ entry hentry hlate ↦ absurd hlate (hnone entry hentry)⟩
  exact ⟨published, hpublished, haudio, hlast,
    (encrypted_audio_unstored sums Int.toNat clearRun).2 htagged hsealed published hpublished [3] haudio⟩

/-- A block, an encrypted frame, a clear one and a short block. -/
def leakRun (x : ℤ) : List (Surroundings Unit × Event ℤ Unit) :=
  [framedChannel, spoken .voice none, samplesBlock 96 x, spoken .voice (some true), spoken .voice (some false), samplesBlock 6 0,
    spoken .terminator none].map fun event ↦ (quietly, event)

/-- What is stored of the call depends on a block from before its last encrypted frame. -/
theorem encrypted_audio_leaks :
    (run sums (leakRun 1)).published.map (fun published ↦ (published.audio, published.history.lastEncrypted)) =
        [(some [95], some 3)] ∧
      (run sums (leakRun 2)).published.map (fun published ↦ (published.audio, published.history.lastEncrypted)) =
        [(some [190], some 3)] ∧
      ∀ place ≠ 2, (leakRun 1)[place]? = (leakRun 2)[place]? := by
  refine ⟨by decide +kernel, by decide +kernel, fun place hplace ↦ ?_⟩
  rcases place with _ | _ | _ | _ | _ | _ | _ | place
  all_goals first | rfl | exact absurd rfl hplace

end Sdrmm.Calls
