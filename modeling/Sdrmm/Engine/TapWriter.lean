import Sdrmm.Engine.Align
import Sdrmm.Engine.TapLane

/-!
# The writer of a lane

A writer whose calls never go back keeps the samples of its lane numbered, whatever the reader does between
its accesses to the queues.
-/

namespace Sdrmm.Align

variable {S : Type}

/-! ## What is written -/

/-- No call goes below the end of an earlier block or an earlier event. -/
def Ordered : ℕ → List (WriterCall S) → Prop
  | _, [] => True
  | low, .write block index _ :: rest => low ≤ index ∧ Ordered (index + block.length) rest
  | low, .event event :: rest => low ≤ event.position ∧ Ordered event.position rest

/-- The sample that is written at an index. -/
def written : List (WriterCall S) → ℕ → Option S
  | [], _ => none
  | .write block index _ :: rest, i =>
      if index ≤ i ∧ i < index + block.length then block[i - index]? else written rest i
  | .event _ :: rest, i => written rest i

/-! ## Steps of a writer -/

section Steps

variable {given : ℕ → Option S} {number : ℕ} {α β : Type}

/-- What the reader may do to the lane of a writer. -/
def WriterRely (given : ℕ → Option S) (number : ℕ) (before after : Rig S) : Prop :=
  (before.lanes number).Reads given (after.lanes number)

/-- What a writer does: it writes to its lane. -/
structure WriterGuar (given : ℕ → Option S) (number : ℕ) (before after : Rig S) : Prop where
  lanes : ∀ other, other ≠ number → after.lanes other = before.lanes other
  aligner : after.aligner = before.aligner
  blocks : after.blocks = before.blocks
  writes : (before.lanes number).Writes given (after.lanes number)

/-- The reader leaves it true. -/
def Stable (given : ℕ → Option S) (P : Lane S → Prop) : Prop :=
  ∀ before after : Lane S, before.Reads given after → before.Numbered given → P before → P after

/-- A part of a writer that leads from `P` to `Q`. -/
def Leads (given : ℕ → Option S) (number : ℕ) (P : Lane S → Prop) (program : Prog (Rig S) α)
    (Q : α → Lane S → Prop) : Prop :=
  ∀ rig : Rig S, (rig.lanes number).Numbered given → P (rig.lanes number) →
    Prog.Safe (WriterRely given number) (WriterGuar given number)
      (fun value after ↦ (after.lanes number).Numbered given ∧ Q value (after.lanes number)) program rig

theorem Leads.pure {P : Lane S → Prop} {Q : α → Lane S → Prop} (value : α) (hP : Stable given P)
    (himp : ∀ lane, P lane → Q value lane) : Leads given number P (.done value) Q := by
  intro rig hnumbered hrig after hafter
  exact ⟨hafter.numbered hnumbered, himp _ (hP _ _ hafter hnumbered hrig)⟩

theorem Leads.bind {P : Lane S → Prop} {Q : α → Lane S → Prop} {R : β → Lane S → Prop}
    {program : Prog (Rig S) α} {next : α → Prog (Rig S) β} (hfirst : Leads given number P program Q)
    (hnext : ∀ value, Leads given number (Q value) (next value) R) :
    Leads given number P (program.bind next) R := by
  intro rig hnumbered hrig
  apply Prog.Safe.bind fun rig ↦ Lane.Reads.refl given (rig.lanes number)
  apply (hfirst rig hnumbered hrig).imp
  intro value after hafter
  exact hnext value after hafter.1 hafter.2

theorem Leads.onLane {P : Lane S → Prop} {Q : α → Lane S → Prop} {f : Lane S → α × Lane S}
    (hP : Stable given P) (hQ : ∀ value, Stable given (Q value))
    (hf : ∀ lane, lane.Numbered given → P lane → lane.Writes given (f lane).2 ∧ Q (f lane).1 (f lane).2) :
    Leads given number P (onLane number f) Q := by
  intro rig hrigNumbered hrig before hbefore
  have hnumbered := hbefore.numbered hrigNumbered
  obtain ⟨hwrites, hq⟩ := hf _ hnumbered (hP _ _ hbefore hrigNumbered hrig)
  have hlane : ((before.setLane number (f (before.lanes number)).2)).lanes number =
      (f (before.lanes number)).2 := Function.update_self _ _ _
  refine ⟨⟨fun other hother ↦ Function.update_of_ne hother _ _, rfl, rfl, ?_⟩, ?_⟩
  · show Lane.Writes given _ ((before.setLane number (f (before.lanes number)).2).lanes number)
    rw [hlane]
    exact hwrites
  · intro after hafter
    have hafter : Lane.Reads given (f (before.lanes number)).2 (after.lanes number) := by
      rw [← hlane]
      exact hafter
    have hkept := hwrites.numbered hnumbered
    exact ⟨hafter.numbered hkept, hQ _ _ _ hafter hkept hq⟩

end Steps

/-! ## The position of a writer -/

namespace Lane

variable {lane : Lane S}

/-- The lane reaches `position`, with the gap that the reader does not know of yet. -/
def At (lane : Lane S) (position : ℕ) : Prop :=
  match lane.ring.pending with
  | none => ∀ stop ∈ lane.stop?, stop = position
  | some (held, missing) => lane.stop? = some held ∧ held + missing = position

/-- Between two calls: no call goes below `low`. -/
structure Between (lane : Lane S) (low : ℕ) : Prop where
  fresh : lane.ring.ringIndex = none → lane.ring.pending = none ∧ lane.stop? = none
  reached : ∀ index ∈ lane.ring.ringIndex, index ≤ low ∧ lane.stop?.isSome ∧ lane.At index

theorem At.hold {position : ℕ} (hat : lane.At position) (hstop : lane.stop?.isSome) (missing : ℕ)
    (index : Option ℕ) :
    ({ lane with ring := { lane.ring.hold position missing with ringIndex := index } } : Lane S).At
      (position + missing) := by
  obtain ⟨stop, hsome⟩ := Option.isSome_iff_exists.mp hstop
  unfold TapRing.hold
  by_cases hmissing : missing = 0
  · rw [if_pos hmissing, hmissing]
    exact hat
  · rw [if_neg hmissing]
    unfold At at hat ⊢
    cases hpending : lane.ring.pending with
    | none =>
      rw [hpending] at hat
      refine ⟨?_, rfl⟩
      rw [← hat stop hsome]
      exact hsome
    | some gap =>
      rw [hpending] at hat
      refine ⟨hat.1, ?_⟩
      have hend := hat.2
      show gap.1 + max (position + missing - gap.1) gap.2 = position + missing
      omega

theorem stable_at (given : ℕ → Option S) (position : ℕ) : Stable given fun lane ↦ lane.At position := by
  intro before after hreads hnumbered hat
  unfold At at hat ⊢
  rw [hreads.ring, hreads.stop hnumbered]
  exact hat

theorem stable_between (given : ℕ → Option S) (low : ℕ) :
    Stable given fun lane ↦ lane.Between low := by
  intro before after hreads hnumbered hbetween
  refine ⟨?_, ?_⟩
  · rw [hreads.ring, hreads.stop hnumbered]
    exact hbetween.fresh
  · intro index hindex
    rw [hreads.ring] at hindex
    rw [hreads.stop hnumbered]
    have hreached := hbetween.reached index hindex
    exact ⟨hreached.1, hreached.2.1, stable_at given index before after hreads hnumbered hreached.2.2⟩

theorem stable_ring (given : ℕ → Option S) (P : TapRing → Prop) : Stable given fun lane ↦ P lane.ring := by
  intro before after hreads _ hring
  rw [hreads.ring]
  exact hring

theorem stable_stop (given : ℕ → Option S) (P : Option ℕ → Prop) :
    Stable given fun lane ↦ P lane.stop? := by
  intro before after hreads hnumbered hstop
  rw [hreads.stop hnumbered]
  exact hstop

theorem stable_slots (given : ℕ → Option S) (count : ℕ) : Stable given fun lane ↦ count ≤ lane.slots := by
  intro before after hreads _ hslots
  have hsamples := hreads.samples
  rw [slots, hreads.capacity]
  rw [slots] at hslots
  omega

end Lane

theorem Stable.and {given : ℕ → Option S} {P Q : Lane S → Prop} (hP : Stable given P)
    (hQ : Stable given Q) : Stable given fun lane ↦ P lane ∧ Q lane :=
  fun before after hreads hnumbered hboth ↦
    ⟨hP before after hreads hnumbered hboth.1, hQ before after hreads hnumbered hboth.2⟩

namespace Lane

variable {lane : Lane S} {given : ℕ → Option S} {low index : ℕ}

/-- Where nothing has been written, there is room. -/
theorem stop?_of_full (hnumbered : lane.Numbered given) (hfull : lane.slots = 0) : lane.stop?.isSome := by
  cases hstop : lane.stop? with
  | some stop => rfl
  | none =>
    have hempty := hnumbered.empty (start?_of_stop? hstop)
    have hcapacity := lane.capacity_ge
    rw [slots, hempty, List.length_nil, Nat.sub_zero] at hfull
    rw [hfull] at hcapacity
    exact absurd hcapacity (by decide)

/-- The writer comes to `index`. -/
theorem Between.arrive (hbetween : lane.Between low) (hlow : low ≤ index) :
    (∀ expected, lane.ring.ringIndex = some expected → expected < index →
      ∀ next, ({ lane with
        ring := { lane.ring.hold expected (index - expected) with ringIndex := next } } : Lane S).At index) ∧
    (¬(∃ expected, lane.ring.ringIndex = some expected ∧ expected < index) → lane.At index) := by
  constructor
  · intro expected hexpected hlt next
    obtain ⟨-, hstop, hat⟩ := hbetween.reached expected hexpected
    have hheld := hat.hold hstop (index - expected) next
    rwa [Nat.add_sub_cancel' (Nat.le_of_lt hlt)] at hheld
  · intro hnone
    cases hring : lane.ring.ringIndex with
    | none =>
      obtain ⟨hpending, hstop⟩ := hbetween.fresh hring
      unfold At
      rw [hpending, hstop]
      exact fun _ hmem ↦ nomatch hmem
    | some expected =>
      obtain ⟨hle, -, hat⟩ := hbetween.reached expected hring
      have hsame : expected = index := by
        by_contra hne
        exact hnone ⟨expected, hring, by omega⟩
      rwa [hsame] at hat

theorem enter_spec (hnumbered : lane.Numbered given) (hbetween : lane.Between low) (hlow : low ≤ index) :
    lane.Writes given (lane.enter index).2 ∧ (lane.enter index).2.At index ∧
      ((lane.enter index).1 = true → (lane.enter index).2.stop?.isSome) := by
  have hfull : (lane.enter index).1 = true → lane.stop?.isSome := fun hfull ↦
    stop?_of_full hnumbered (beq_iff_eq.mp hfull)
  refine ⟨writes_ring lane _, ?_, hfull⟩
  obtain ⟨hgap, hnone⟩ := hbetween.arrive hlow
  unfold enter
  dsimp only
  split
  · next hring =>
    apply hnone
    rintro ⟨expected, hexpected, -⟩
    exact Option.some_ne_none expected (hexpected.symm.trans hring)
  · next expected hring =>
    split
    · next hlt => exact hgap expected hring hlt _
    · next hlt =>
      apply hnone
      rintro ⟨other, hother, hless⟩
      rw [Option.some.inj (hring.symm.trans hother)] at hlt
      exact hlt hless

theorem meet_spec (hbetween : lane.Between low) (hlow : low ≤ index) :
    lane.Writes given (lane.meet index) ∧ (lane.meet index).At index ∧
      (lane.meet index).ring.ringIndex = some index := by
  obtain ⟨hgap, hnone⟩ := hbetween.arrive hlow
  unfold meet
  split
  · next hring =>
    refine ⟨writes_ring lane _, hnone ?_, rfl⟩
    rintro ⟨expected, hexpected, -⟩
    cases hring.symm.trans hexpected
  · next expected hring =>
    split
    · next hlt => exact ⟨writes_ring lane _, hgap expected hring hlt _, rfl⟩
    · next hlt =>
      have hle := (hbetween.reached expected hring).1
      have hsame : expected = index := by omega
      rw [hsame] at hring
      refine ⟨.refl given lane, hnone ?_, hring⟩
      rintro ⟨other, hother, hless⟩
      rw [← Option.some.inj (hring.symm.trans hother)] at hless
      exact absurd hless (Nat.lt_irrefl _)

theorem stop?_of_events (hevents : lane.events ≠ []) : lane.stop?.isSome := by
  cases hstop : lane.stop? with
  | some stop => rfl
  | none => exact absurd (events_of_stop? hstop).2 hevents

theorem at_of_pending (hpending : lane.ring.pending = none) :
    lane.At index ↔ ∀ stop ∈ lane.stop?, stop = index := by rw [At, hpending]

theorem flush_spec (hnumbered : lane.Numbered given) (hat : lane.At index) :
    lane.Writes given lane.flush.2 ∧ lane.flush.2.At index ∧
      lane.flush.2.ring.ringIndex = lane.ring.ringIndex ∧
      (lane.flush.1 = true → lane.flush.2.ring.pending = none) ∧
      (lane.flush.1 = false → lane.flush.2.stop?.isSome) := by
  cases hpending : lane.ring.pending with
  | none =>
    rw [flush, hpending]
    exact ⟨.refl given lane, hat, rfl, fun _ ↦ hpending, fun hfalse ↦ Bool.noConfusion hfalse⟩
  | some gap =>
    have hheld := hat
    rw [At, hpending] at hheld
    by_cases hroom : lane.events.length < tapEventSlots
    · obtain ⟨hwrites, hstop⟩ := append_spec hnumbered (.gap gap.1 gap.2)
        fun stop hmem ↦ Option.some.inj (hmem.symm.trans hheld.1)
      have hflush : lane.flush = (true, { lane with
          events := lane.events ++ [.gap gap.1 gap.2]
          ring := { lane.ring with pending := none } }) := by
        simp only [flush, hpending, pushEvent, if_pos hroom, if_true]
      rw [hflush]
      refine ⟨hwrites.trans (writes_ring _ _), ?_, rfl, fun _ ↦ rfl, fun hfalse ↦ Bool.noConfusion hfalse⟩
      intro stop hmem
      exact (Option.some.inj (hmem.symm.trans hstop)).trans hheld.2
    · have hflush : lane.flush = (false, lane) := by
        simp only [flush, hpending, pushEvent, if_neg hroom, Bool.false_eq_true, if_false]
      rw [hflush]
      refine ⟨.refl given lane, hat, rfl, (fun htrue ↦ Bool.noConfusion htrue), fun _ ↦ ?_⟩
      rw [hheld.1]
      rfl

/-- An event that leaves nothing out, pushed where the writer stands. -/
theorem pushEvent_spec (hnumbered : lane.Numbered given) (event : TapEvent)
    (hpending : lane.ring.pending = none) (hat : lane.At event.position) (hcut : event.cut.2 = 0) :
    lane.Writes given (lane.pushEvent event).2 ∧ (lane.pushEvent event).2.At event.position ∧
      (lane.pushEvent event).2.ring = lane.ring ∧ (lane.pushEvent event).2.stop?.isSome := by
  unfold pushEvent
  split
  · next hroom =>
    obtain ⟨hwrites, hstop⟩ := append_spec hnumbered event ((at_of_pending hpending).mp hat)
    rw [hcut, Nat.add_zero] at hstop
    have hpushed : ({ lane with events := lane.events ++ [event] } : Lane S).ring.pending = none := hpending
    refine ⟨hwrites, ?_, rfl, ?_⟩
    · exact (at_of_pending hpushed).mpr fun stop hmem ↦ Option.some.inj (hmem.symm.trans hstop)
    · exact Option.isSome_iff_exists.mpr ⟨_, hstop⟩
  · next hroom =>
    refine ⟨.refl given lane, hat, rfl, stop?_of_events ?_⟩
    intro hnil
    rw [hnil] at hroom
    exact hroom (by decide)

theorem leave_spec {stop missing : ℕ} (hmissing : missing ≤ stop) (hat : lane.At (stop - missing))
    (hsome : lane.stop?.isSome) :
    lane.Writes given (lane.leave stop missing) ∧ (lane.leave stop missing).Between stop := by
  refine ⟨writes_ring lane _, (fun hnone ↦ nomatch hnone), ?_⟩
  rintro index ⟨⟩
  have hheld := hat.hold hsome missing (some stop)
  rw [Nat.sub_add_cancel hmissing] at hheld
  exact ⟨Nat.le_refl _, hsome, hheld⟩

theorem pushSamples_spec (hnumbered : lane.Numbered given) (hpending : lane.ring.pending = none)
    (hat : lane.At index) (hsome : lane.stop?.isSome) {chunk : List S} (hroom : chunk.length ≤ lane.slots)
    (hpositive : 0 < chunk.length)
    (hchunk : chunk.map some = (List.range' index chunk.length).map given) :
    lane.Writes given (lane.pushSamples chunk) ∧ (lane.pushSamples chunk).At (index + chunk.length) ∧
      (lane.pushSamples chunk).stop?.isSome := by
  obtain ⟨stop, hstop⟩ := Option.isSome_iff_exists.mp hsome
  rw [(at_of_pending hpending).mp hat stop hstop] at hstop
  obtain ⟨hwrites, hlast⟩ := samples_spec hnumbered hstop chunk hchunk
  rw [slots] at hroom
  rw [pushSamples, if_pos (by omega)]
  have hpushed : ({ lane with samples := lane.samples ++ chunk } : Lane S).ring.pending = none := hpending
  refine ⟨hwrites, ?_, ?_⟩
  · exact (at_of_pending hpushed).mpr fun last hmem ↦ Option.some.inj (hmem.symm.trans hlast)
  · exact Option.isSome_iff_exists.mpr ⟨_, hlast⟩

end Lane

/-! ## The calls of a writer -/

section Calls

variable {given : ℕ → Option S} {number low index : ℕ}

theorem leads_ite {α : Type} {P : Lane S → Prop} {Q : α → Lane S → Prop} {condition : Bool}
    {yes no : Prog (Rig S) α} (hyes : condition = true → Leads given number P yes Q)
    (hno : condition = false → Leads given number P no Q) :
    Leads given number P (if condition then yes else no) Q := by
  cases condition with
  | true => exact hyes rfl
  | false => exact hno rfl

theorem stable_pending (given : ℕ → Option S) : Stable given fun lane ↦ lane.ring.pending = none :=
  Lane.stable_ring given fun ring ↦ ring.pending = none

theorem stable_some (given : ℕ → Option S) : Stable given fun lane ↦ lane.stop?.isSome :=
  Lane.stable_stop given fun stop ↦ stop.isSome

/-- The first stamp is always pushed, so that the reader knows where the samples begin. -/
theorem leads_pushStamp (number index hostNs : ℕ) :
    Leads given number (fun lane ↦ lane.ring.pending = none ∧ lane.At index) (pushStamp number index hostNs)
      fun _ lane ↦ (lane.ring.pending = none ∧ lane.At index) ∧ lane.stop?.isSome := by
  have hstands := (stable_pending given).and (Lane.stable_at given index)
  have hlooked : ∀ roomy : Bool, Stable given fun lane : Lane S ↦
      (lane.ring.pending = none ∧ lane.At index) ∧ (roomy = false → lane.stop?.isSome) := fun roomy ↦
    hstands.and (Lane.stable_stop given fun stop ↦ roomy = false → stop.isSome)
  unfold pushStamp
  apply Leads.bind (Leads.onLane hstands hlooked ?_)
  · intro roomy
    apply leads_ite
    · intro _
      apply Leads.onLane (hlooked roomy) fun _ ↦ hstands.and (stable_some given)
      rintro lane hnumbered ⟨⟨hpending, hat⟩, -⟩
      obtain ⟨hwrites, hpushed, hring, hsome⟩ :=
        Lane.pushEvent_spec hnumbered (.stamp index hostNs) hpending hat rfl
      exact ⟨hwrites, ⟨(congrArg TapRing.pending hring).trans hpending, hpushed⟩, hsome⟩
    · intro hroomy
      exact .pure () (hlooked roomy) fun lane hlane ↦ ⟨hlane.1, hlane.2 hroomy⟩
  · intro lane hnumbered hlane
    refine ⟨.refl given lane, hlane, ?_⟩
    intro hroomy
    apply Lane.stop?_of_events
    intro hnil
    rw [hnil] at hroomy
    exact absurd (show decide (stampReserve < tapEventSlots - 0) = false from hroomy) (by decide)

/-- As many samples are pushed as there was room for. -/
theorem leads_pushBlock (number : ℕ) (block : List S)
    (hblock : block.map some = (List.range' index block.length).map given) :
    Leads given number (fun lane ↦ (lane.ring.pending = none ∧ lane.At index) ∧ lane.stop?.isSome)
      (pushBlock number block index) fun _ lane ↦ lane.Between (index + block.length) := by
  have hstands := ((stable_pending given).and (Lane.stable_at given index)).and (stable_some given)
  have hroom : ∀ taken : ℕ, Stable given fun lane : Lane S ↦
      ((lane.ring.pending = none ∧ lane.At index) ∧ lane.stop?.isSome) ∧ taken ≤ lane.slots ∧
        taken ≤ block.length := fun taken ↦
    hstands.and ((Lane.stable_slots given taken).and fun _ _ _ _ hle ↦ hle)
  have hpushed : ∀ taken : ℕ, Stable given fun lane : Lane S ↦
      (lane.At (index + taken) ∧ lane.stop?.isSome) ∧ taken ≤ block.length := fun taken ↦
    ((Lane.stable_at given _).and (stable_some given)).and fun _ _ _ _ hle ↦ hle
  unfold pushBlock
  apply Leads.bind (Leads.onLane hstands hroom ?_)
  · intro taken
    apply Leads.bind (Q := fun _ lane ↦ (lane.At (index + taken) ∧ lane.stop?.isSome) ∧ taken ≤ block.length)
    · by_cases htaken : 0 < taken
      · rw [if_pos htaken]
        apply Leads.onLane (hroom taken) fun _ ↦ hpushed taken
        rintro lane hnumbered ⟨⟨⟨hpending, hat⟩, hsome⟩, hslots, hle⟩
        have hlength : (block.take taken).length = taken := by rw [List.length_take, Nat.min_eq_left hle]
        have hchunk : (block.take taken).map some =
            (List.range' index (block.take taken).length).map given := by
          rw [hlength, List.map_take, hblock, ← List.map_take, List.take_range'_of_length_ge hle]
        obtain ⟨hwrites, hafter, hstop⟩ := Lane.pushSamples_spec hnumbered hpending hat hsome
          (hlength.trans_le hslots) (htaken.trans_eq hlength.symm) hchunk
        rw [hlength] at hafter
        exact ⟨hwrites, ⟨hafter, hstop⟩, hle⟩
      · rw [if_neg htaken]
        have hzero : taken = 0 := by omega
        apply Leads.pure () (hroom taken)
        rintro lane ⟨⟨⟨-, hat⟩, hsome⟩, -, hle⟩
        rw [hzero]
        exact ⟨⟨hat, hsome⟩, Nat.zero_le _⟩
    · intro _
      apply Leads.onLane (hpushed taken) fun _ ↦ Lane.stable_between given _
      rintro lane - ⟨⟨hat, hsome⟩, hle⟩
      apply Lane.leave_spec (by omega) _ hsome
      rwa [show index + block.length - (block.length - taken) = index + taken by omega]
  · intro lane _ hlane
    exact ⟨.refl given lane, hlane, Nat.min_le_left _ _, Nat.min_le_right _ _⟩

theorem leads_write (number : ℕ) (block : List S) (hostNs : ℕ) (hlow : low ≤ index)
    (hblock : block.map some = (List.range' index block.length).map given) :
    Leads given number (fun lane ↦ lane.Between low) (write number block index hostNs)
      fun _ lane ↦ lane.Between (index + block.length) := by
  have hentered : ∀ full : Bool, Stable given fun lane : Lane S ↦
      lane.At index ∧ (full = true → lane.stop?.isSome) := fun full ↦
    (Lane.stable_at given index).and (Lane.stable_stop given fun stop ↦ full = true → stop.isSome)
  have hflushed : ∀ flushed : Bool, Stable given fun lane : Lane S ↦
      lane.At index ∧ (flushed = true → lane.ring.pending = none) ∧
        (flushed = false → lane.stop?.isSome) := fun flushed ↦
    (Lane.stable_at given index).and
      ((Lane.stable_ring given fun ring ↦ flushed = true → ring.pending = none).and
        (Lane.stable_stop given fun stop ↦ flushed = false → stop.isSome))
  unfold write
  apply Leads.bind (Leads.onLane (Lane.stable_between given low) hentered ?_)
  · intro full
    apply Leads.bind (Q := fun flushed lane ↦ lane.At index ∧
      (flushed = true → lane.ring.pending = none) ∧ (flushed = false → lane.stop?.isSome))
    · apply leads_ite
      · intro hfull
        apply Leads.pure false (hentered full)
        exact fun lane hlane ↦ ⟨hlane.1, (fun htrue ↦ nomatch htrue), fun _ ↦ hlane.2 hfull⟩
      · intro _
        apply Leads.onLane (hentered full) hflushed
        rintro lane hnumbered ⟨hat, -⟩
        obtain ⟨hwrites, hafter, -, hnone, hsome⟩ := Lane.flush_spec hnumbered hat
        exact ⟨hwrites, hafter, hnone, hsome⟩
    · intro flushed
      apply leads_ite
      · intro htrue
        rintro rig hnumbered ⟨hat, hpending, -⟩
        exact Leads.bind (leads_pushStamp number index hostNs)
          (fun _ ↦ leads_pushBlock number block hblock) rig hnumbered ⟨hpending htrue, hat⟩
      · intro hfalse
        apply Leads.onLane (hflushed flushed) fun _ ↦ Lane.stable_between given _
        rintro lane - ⟨hat, -, hsome⟩
        apply Lane.leave_spec (by omega) _ (hsome hfalse)
        rwa [Nat.add_sub_cancel]
  · intro lane hnumbered hbetween
    obtain ⟨hwrites, hat, hfull⟩ := Lane.enter_spec hnumbered hbetween hlow
    exact ⟨hwrites, hat, hfull⟩

theorem leads_event (number : ℕ) (event : LaneEvent) (hlow : low ≤ event.position) :
    Leads given number (fun lane ↦ lane.Between low) (Align.event number event)
      fun _ lane ↦ lane.Between event.position := by
  have hring : Stable given fun lane : Lane S ↦ lane.ring.ringIndex = some event.position :=
    Lane.stable_ring given fun ring ↦ ring.ringIndex = some event.position
  have hmet := hring.and (Lane.stable_at given event.position)
  have hflushed : ∀ flushed : Bool, Stable given fun lane : Lane S ↦
      (lane.ring.ringIndex = some event.position ∧ lane.At event.position) ∧
        (flushed = true → lane.ring.pending = none) ∧ (flushed = false → lane.stop?.isSome) := fun flushed ↦
    hmet.and ((Lane.stable_ring given fun ring ↦ flushed = true → ring.pending = none).and
      (Lane.stable_stop given fun stop ↦ flushed = false → stop.isSome))
  have hbetween : ∀ lane : Lane S, (lane.ring.ringIndex = some event.position ∧ lane.At event.position) ∧
      lane.stop?.isSome → lane.Between event.position := by
    rintro lane ⟨⟨hindex, hat⟩, hsome⟩
    refine ⟨?_, ?_⟩
    · rw [hindex]
      exact fun hnone ↦ nomatch hnone
    · rw [hindex]
      rintro _ ⟨⟩
      exact ⟨Nat.le_refl _, hsome, hat⟩
  unfold Align.event
  apply Leads.bind (Leads.onLane (Lane.stable_between given low) (fun _ ↦ hmet) ?_)
  · intro _
    apply Leads.bind (Leads.onLane hmet hflushed ?_)
    · intro flushed
      apply Leads.bind (Q := fun _ lane ↦
        (lane.ring.ringIndex = some event.position ∧ lane.At event.position) ∧ lane.stop?.isSome)
      · apply leads_ite
        · intro htrue
          apply Leads.onLane (hflushed flushed) fun _ ↦ hmet.and (stable_some given)
          rintro lane hnumbered ⟨⟨hindex, hat⟩, hpending, -⟩
          obtain ⟨hwrites, hpushed, hkept, hsome⟩ :=
            Lane.pushEvent_spec hnumbered (.lane event) (hpending htrue) hat rfl
          exact ⟨hwrites, ⟨(congrArg TapRing.ringIndex hkept).trans hindex, hpushed⟩, hsome⟩
        · intro hfalse
          exact Leads.pure false (hflushed flushed) fun lane hlane ↦ ⟨hlane.1, hlane.2.2 hfalse⟩
      · intro pushed
        apply leads_ite
        · intro _
          exact Leads.pure () (hmet.and (stable_some given)) hbetween
        · intro _
          apply Leads.onLane (hmet.and (stable_some given)) fun _ ↦ Lane.stable_between given _
          intro lane _ hlane
          exact ⟨Lane.writes_ring lane _, hbetween _ hlane⟩
    · rintro lane hnumbered ⟨hindex, hat⟩
      obtain ⟨hwrites, hafter, hkept, hnone, hsome⟩ := Lane.flush_spec hnumbered hat
      exact ⟨hwrites, ⟨hkept.trans hindex, hafter⟩, hnone, hsome⟩
  · intro lane _ hlane
    obtain ⟨hwrites, hat, hindex⟩ := Lane.meet_spec hlane hlow
    exact ⟨hwrites, hindex, hat⟩

theorem map_written (block : List S) (hostNs : ℕ) (rest : List (WriterCall S))
    (hgiven : ∀ i, index ≤ i → given i = written (.write block index hostNs :: rest) i) :
    block.map some = (List.range' index block.length).map given := by
  apply List.ext_getElem
  · rw [List.length_map, List.length_map, List.length_range']
  · intro i hleft hright
    rw [List.length_map] at hleft
    rw [List.getElem_map, List.getElem_map, List.getElem_range', Nat.one_mul,
      hgiven (index + i) (Nat.le_add_right _ _), written,
      if_pos ⟨Nat.le_add_right _ _, Nat.add_lt_add_left hleft index⟩, Nat.add_sub_cancel_left,
      List.getElem?_eq_getElem hleft]

/-- A writer whose calls never go back, from a new lane on. -/
theorem safe_writer (number : ℕ) (calls : List (WriterCall S)) (hordered : Ordered 0 calls) (rig : Rig S)
    (hnumbered : (rig.lanes number).Numbered (written calls)) (hbetween : (rig.lanes number).Between 0) :
    Prog.Safe (WriterRely (written calls) number) (WriterGuar (written calls) number) (fun _ _ ↦ True)
      (writer number calls) rig := by
  refine Prog.Safe.imp (Prog.Safe.each ?_ (fun rest rig ↦
    (rig.lanes number).Numbered (written calls) ∧ ∃ low, Ordered low rest ∧
      (∀ i, low ≤ i → written calls i = written rest i) ∧ (rig.lanes number).Between low)
    ?_ ?_ calls ⟨hnumbered, 0, hordered, fun _ _ ↦ rfl, hbetween⟩) fun _ _ _ ↦ trivial
  · exact fun rig ↦ Lane.Reads.refl (written calls) (rig.lanes number)
  · rintro rest before after ⟨hbefore, low, hrest, hsame, hlow⟩ hreads
    exact ⟨hreads.numbered hbefore, low, hrest, hsame,
      Lane.stable_between (written calls) low _ _ hreads hbefore hlow⟩
  · rintro call rest rig ⟨hrig, low, hrest, hsame, hlow⟩
    cases call with
    | write block index hostNs =>
      have hblock := map_written block hostNs rest fun i hi ↦ hsame i (Nat.le_trans hrest.1 hi)
      apply (leads_write number block hostNs hrest.1 hblock rig hrig hlow).imp
      rintro _ after ⟨hafter, hstands⟩
      refine ⟨hafter, index + block.length, hrest.2, ?_, hstands⟩
      intro i hi
      have hlow : low ≤ index := hrest.1
      rw [hsame i (by omega), written, if_neg (by omega)]
    | event event =>
      apply (leads_event number event hrest.1 rig hrig hlow).imp
      rintro _ after ⟨hafter, hstands⟩
      refine ⟨hafter, event.position, hrest.2, ?_, hstands⟩
      intro i hi
      rw [hsame i (Nat.le_trans hrest.1 hi), written]

end Calls

end Sdrmm.Align
