import Sdrmm.Engine.TapWriter

/-!
# Delivered blocks

The aligner delivers only samples that its lanes have at one common position, whatever their writers do
between its accesses to the queues, and no sample twice.
-/

namespace Sdrmm.Align

variable {S : Type} {lanes : ℕ} {given : ℕ → ℕ → Option S}

/-! ## What holds of the blocks -/

/-- The position of a lane where a block ends. -/
def Block.stop (block : Block S) (number : ℕ) : ℤ :=
  (block.index : ℤ) + block.offsets number + block.count

/-- A block has the samples of a lane that were written from its position on. -/
def Block.Exact (given : ℕ → Option S) (block : Block S) (number : ℕ) : Prop :=
  ∃ read : ℕ, (read : ℤ) = (block.index : ℤ) + block.offsets number ∧
    (block.raw number).map some = (List.range' read block.count).map given

/-- What has been delivered is right, and lies behind the readers of the lanes. -/
structure Kept (lanes : ℕ) (given : ℕ → ℕ → Option S) (rig : Rig S) : Prop where
  exact : ∀ block ∈ rig.blocks, ∀ number < lanes, block.Exact (given number) number
  apart : rig.blocks.Pairwise fun later earlier ↦
    ∀ number < lanes, earlier.stop number ≤ (later.index : ℤ) + later.offsets number
  behind : ∀ block ∈ rig.blocks, ∀ number < lanes,
    ∃ read ∈ (rig.lanes number).feed.readIndex, block.stop number ≤ read

structure Good (lanes : ℕ) (given : ℕ → ℕ → Option S) (rig : Rig S) : Prop where
  numbered : ∀ number, (rig.lanes number).Numbered (given number)
  kept : Kept lanes given rig

/-- What the writers may do. -/
structure ReaderRely (given : ℕ → ℕ → Option S) (before after : Rig S) : Prop where
  aligner : after.aligner = before.aligner
  blocks : after.blocks = before.blocks
  writes : ∀ number, (before.lanes number).Writes (given number) (after.lanes number)

/-- What the reader does. -/
structure ReaderGuar (lanes : ℕ) (given : ℕ → ℕ → Option S) (before after : Rig S) : Prop where
  reads : ∀ number, (before.lanes number).Reads (given number) (after.lanes number)
  kept : Kept lanes given before → Kept lanes given after

variable {before after rig : Rig S}

theorem ReaderRely.refl (given : ℕ → ℕ → Option S) (rig : Rig S) : ReaderRely given rig rig :=
  ⟨rfl, rfl, fun number ↦ .refl (given number) (rig.lanes number)⟩

theorem ReaderRely.trans {middle : Rig S} (hfirst : ReaderRely given before middle)
    (hsecond : ReaderRely given middle after) : ReaderRely given before after where
  aligner := hsecond.aligner.trans hfirst.aligner
  blocks := hsecond.blocks.trans hfirst.blocks
  writes := fun number ↦ (hfirst.writes number).trans (hsecond.writes number)

/-- Blocks stay right while the readers of the lanes do not go back. -/
theorem Kept.of_ahead (hkept : Kept lanes given before) (hblocks : after.blocks = before.blocks)
    (hahead : ∀ number, (before.lanes number).Ahead (after.lanes number)) : Kept lanes given after where
  exact := by
    rw [hblocks]
    exact hkept.exact
  apart := by
    rw [hblocks]
    exact hkept.apart
  behind := by
    rw [hblocks]
    intro block hblock number hnumber
    obtain ⟨read, hread, hle⟩ := hkept.behind block hblock number hnumber
    obtain ⟨later, hlater, hmore⟩ := hahead number read hread
    exact ⟨later, hlater, Int.le_trans hle (Int.ofNat_le.mpr hmore)⟩

theorem Good.of_rely (hgood : Good lanes given before) (hrely : ReaderRely given before after) :
    Good lanes given after where
  numbered := fun number ↦ (hrely.writes number).numbered (hgood.numbered number)
  kept := hgood.kept.of_ahead hrely.blocks fun number read hread ↦
    ⟨read, by rwa [(hrely.writes number).feed], Nat.le_refl _⟩

theorem Good.of_guar (hgood : Good lanes given before) (hguar : ReaderGuar lanes given before after) :
    Good lanes given after where
  numbered := fun number ↦ (hguar.reads number).numbered (hgood.numbered number)
  kept := hguar.kept hgood.kept

/-! ## Steps of the reader -/

section Steps

variable {α β : Type}

/-- The writers leave it true. -/
def Holds (lanes : ℕ) (given : ℕ → ℕ → Option S) (P : Rig S → Prop) : Prop :=
  ∀ before after : Rig S, ReaderRely given before after → Good lanes given before → P before → P after

/-- A part of the reader that leads from `P` to `Q`. -/
def Brings (lanes : ℕ) (given : ℕ → ℕ → Option S) (P : Rig S → Prop) (program : Prog (Rig S) α)
    (Q : α → Rig S → Prop) : Prop :=
  ∀ rig : Rig S, Good lanes given rig → P rig →
    Prog.Safe (ReaderRely given) (ReaderGuar lanes given)
      (fun value after ↦ Good lanes given after ∧ Q value after) program rig

theorem Brings.pure {P : Rig S → Prop} {Q : α → Rig S → Prop} (value : α) (hP : Holds lanes given P)
    (himp : ∀ rig, P rig → Q value rig) : Brings lanes given P (.done value) Q := by
  intro rig hgood hrig after hafter
  exact ⟨hgood.of_rely hafter, himp _ (hP _ _ hafter hgood hrig)⟩

theorem Brings.bind {P : Rig S → Prop} {Q : α → Rig S → Prop} {R : β → Rig S → Prop}
    {program : Prog (Rig S) α} {next : α → Prog (Rig S) β} (hfirst : Brings lanes given P program Q)
    (hnext : ∀ value, Brings lanes given (Q value) (next value) R) :
    Brings lanes given P (program.bind next) R := by
  intro rig hgood hrig
  apply Prog.Safe.bind (ReaderRely.refl given)
  apply (hfirst rig hgood hrig).imp
  intro value after hafter
  exact hnext value after hafter.1 hafter.2

theorem Brings.access {P : Rig S → Prop} {Q : α → Rig S → Prop} {f : Rig S → α × Rig S}
    (hP : Holds lanes given P) (hQ : ∀ value, Holds lanes given (Q value))
    (hf : ∀ rig, Good lanes given rig → P rig →
      ReaderGuar lanes given rig (f rig).2 ∧ Q (f rig).1 (f rig).2) :
    Brings lanes given P (.access f) Q := by
  intro rig hrigGood hrig before hbefore
  have hgood := hrigGood.of_rely hbefore
  obtain ⟨hguar, hq⟩ := hf before hgood (hP _ _ hbefore hrigGood hrig)
  refine ⟨hguar, ?_⟩
  intro after hafter
  exact ⟨(hgood.of_guar hguar).of_rely hafter, hQ _ _ _ hafter (hgood.of_guar hguar) hq⟩

theorem Brings.imp {P P' : Rig S → Prop} {Q Q' : α → Rig S → Prop} {program : Prog (Rig S) α}
    (hbrings : Brings lanes given P program Q) (hpre : ∀ rig, P' rig → P rig)
    (hpost : ∀ value rig, Q value rig → Q' value rig) : Brings lanes given P' program Q' := by
  intro rig hgood hrig
  apply (hbrings rig hgood (hpre rig hrig)).imp
  exact fun value after hafter ↦ ⟨hafter.1, hpost value after hafter.2⟩

/-- A loop over the lanes. -/
theorem Brings.each (inv : List β → Rig S → Prop) {body : β → Prog (Rig S) Unit}
    (hinv : ∀ items, Holds lanes given (inv items))
    (hbody : ∀ item rest, Brings lanes given (inv (item :: rest)) (body item) fun _ ↦ inv rest)
    (items : List β) : Brings lanes given (inv items) (.each items body) fun _ ↦ inv [] := by
  intro rig hgood hrig
  refine Prog.Safe.each (ReaderRely.refl given) (fun items rig ↦ Good lanes given rig ∧ inv items rig)
    ?_ ?_ items ⟨hgood, hrig⟩
  · rintro items before after ⟨hbefore, hitems⟩ hrely
    exact ⟨hbefore.of_rely hrely, hinv items _ _ hrely hbefore hitems⟩
  · rintro item rest rig ⟨hgood, hrig⟩
    exact hbody item rest rig hgood hrig

theorem setLane_self (rig : Rig S) (number : ℕ) (lane : Lane S) :
    (rig.setLane number lane).lanes number = lane := Function.update_self _ _ _

theorem setLane_of_ne (rig : Rig S) {number other : ℕ} (lane : Lane S) (hne : other ≠ number) :
    (rig.setLane number lane).lanes other = rig.lanes other := Function.update_of_ne hne _ _

/-- One lane changes. -/
theorem guar_setLane {number : ℕ} {lane : Lane S} {aligner : Aligner} {notes : AlignNotes}
    (hreads : (rig.lanes number).Reads (given number) lane) (hahead : (rig.lanes number).Ahead lane) :
    ReaderGuar lanes given rig { rig.setLane number lane with aligner := aligner, notes := notes } := by
  refine ⟨?_, fun hkept ↦ hkept.of_ahead rfl ?_⟩
  · intro other
    by_cases hne : other = number
    · subst hne
      show (rig.lanes other).Reads (given other) ((rig.setLane other lane).lanes other)
      rwa [setLane_self]
    · show (rig.lanes other).Reads (given other) ((rig.setLane number lane).lanes other)
      rw [setLane_of_ne rig lane hne]
      exact .refl _ _
  · intro other
    by_cases hne : other = number
    · subst hne
      show (rig.lanes other).Ahead ((rig.setLane other lane).lanes other)
      rwa [setLane_self]
    · show (rig.lanes other).Ahead ((rig.setLane number lane).lanes other)
      rw [setLane_of_ne rig lane hne]
      exact fun read hread ↦ ⟨read, hread, Nat.le_refl _⟩

end Steps

/-! ## Settling -/

theorem Holds.and {P Q : Rig S → Prop} (hP : Holds lanes given P) (hQ : Holds lanes given Q) :
    Holds lanes given fun rig ↦ P rig ∧ Q rig :=
  fun before after hrely hgood hboth ↦
    ⟨hP before after hrely hgood hboth.1, hQ before after hrely hgood hboth.2⟩

theorem holds_ready (items : List ℕ) : Holds lanes given fun rig ↦
    ∀ number < lanes, number ∉ items → (rig.lanes number).Ready :=
  fun _ _ hrely hgood hready number hnumber hitems ↦
    (hready number hnumber hitems).of_writes (hgood.numbered number) (hrely.writes number)

theorem holds_visible (number : ℕ) : Holds lanes given fun rig ↦
    (rig.lanes number).feed.visible ≤ (rig.lanes number).samples.length := by
  intro before after hrely _ hvisible
  rw [(hrely.writes number).feed]
  exact Nat.le_trans hvisible (hrely.writes number).samples

theorem ready_setLane {number : ℕ} {rest : List ℕ} (lane : Lane S)
    (hready : ∀ other < lanes, other ∉ number :: rest → (rig.lanes other).Ready) :
    ∀ other < lanes, other ∉ number :: rest → ((rig.setLane number lane).lanes other).Ready := by
  intro other hlt hother
  rw [setLane_of_ne rig lane (List.ne_of_not_mem_cons hother)]
  exact hready other hlt hother

theorem brings_settleLoop (number : ℕ) (rest : List ℕ) (fuel : ℕ) :
    Brings lanes given
      (fun rig ↦ (∀ other < lanes, other ∉ number :: rest → (rig.lanes other).Ready) ∧
        (rig.lanes number).feed.visible ≤ (rig.lanes number).samples.length)
      (settleLoop number fuel) fun _ rig ↦ ∀ other < lanes, other ∉ rest → (rig.lanes other).Ready := by
  have hlooked : Holds lanes given fun rig ↦
      (∀ other < lanes, other ∉ number :: rest → (rig.lanes other).Ready) ∧
        (rig.lanes number).feed.visible ≤ (rig.lanes number).samples.length :=
    (holds_ready _).and (holds_visible number)
  have hsettled : ∀ more : Bool, Holds lanes given fun rig ↦
      ((∀ other < lanes, other ∉ number :: rest → (rig.lanes other).Ready) ∧
        (rig.lanes number).feed.visible ≤ (rig.lanes number).samples.length) ∧
      (more = false → (rig.lanes number).Ready) := fun more ↦
    hlooked.and fun before after hrely hgood hready hmore ↦
      (hready hmore).of_writes (hgood.numbered number) (hrely.writes number)
  induction fuel with
  | zero => exact fun _ _ _ ↦ trivial
  | succ fuel ih =>
    unfold settleLoop
    apply Brings.bind (Brings.access hlooked hsettled ?_)
    · intro more
      cases more with
      | true => exact ih.imp (fun rig hrig ↦ hrig.1) fun _ _ hafter ↦ hafter
      | false =>
        apply Brings.pure () (hsettled false)
        rintro rig ⟨⟨hothers, -⟩, hready⟩ other hlt hother
        by_cases hsame : other = number
        · subst hsame
          exact hready rfl
        · exact hothers other hlt (List.not_mem_cons_of_ne_of_not_mem hsame hother)
    · rintro rig hgood ⟨hothers, hvisible⟩
      obtain ⟨hsettles, hready⟩ := Lane.settle_spec (hgood.numbered number) rig.notes number
        (rig.aligner.offsets number)
      refine ⟨guar_setLane hsettles.reads hsettles.ahead, ⟨ready_setLane _ hothers, ?_⟩, ?_⟩
      · show ((rig.setLane number _).lanes number).feed.visible ≤
          ((rig.setLane number _).lanes number).samples.length
        rw [setLane_self, hsettles.visible, hsettles.samples]
        exact hvisible
      · intro hmore
        show ((rig.setLane number _).lanes number).Ready
        rw [setLane_self]
        exact hready hmore hvisible

theorem brings_settle (fuel : ℕ) :
    Brings lanes given (fun _ ↦ True) (settle lanes fuel)
      fun _ (rig : Rig S) ↦ ∀ number < lanes, (rig.lanes number).Ready := by
  refine Brings.imp (Brings.each (fun items (rig : Rig S) ↦
    ∀ number < lanes, number ∉ items → (rig.lanes number).Ready) holds_ready ?_ (List.range lanes)) ?_ ?_
  · intro number rest
    unfold settleLane
    apply Brings.bind (Brings.access (holds_ready _) (fun _ ↦
      (holds_ready (number :: rest)).and (holds_visible number)) ?_)
    · exact fun _ ↦ brings_settleLoop number rest fuel
    · intro rig _ hready
      refine ⟨guar_setLane (Lane.reads_look _ _) fun read hread ↦ ⟨read, hread, Nat.le_refl _⟩,
        ready_setLane _ hready, ?_⟩
      show ((rig.setLane number _).lanes number).feed.visible ≤
        ((rig.setLane number _).lanes number).samples.length
      rw [setLane_self]
      exact Nat.le_refl _
  · intro rig _ number hnumber hitems
    exact absurd (List.mem_range.mpr hnumber) hitems
  · exact fun _ rig hready number hnumber ↦ hready number hnumber List.not_mem_nil

/-! ## Lining up -/

/-- The lanes that are not in `rest` stand at the common position, if all of them got there, and no lane
stands behind it. -/
def Lined (lanes common : ℕ) (rest : List ℕ) (aligned : Bool) (rig : Rig S) : Prop :=
  ∀ number < lanes, (rig.lanes number).Ready ∧ ∃ read, (rig.lanes number).feed.readIndex = some read ∧
    (read : ℤ) ≤ common + rig.aligner.offsets number ∧
    (number ∉ rest → aligned = true → (read : ℤ) = common + rig.aligner.offsets number)

theorem holds_lined (common : ℕ) (rest : List ℕ) (aligned : Bool) :
    Holds lanes given (Lined lanes common rest aligned) := by
  intro before after hrely hgood hlined number hnumber
  obtain ⟨hready, hread⟩ := hlined number hnumber
  refine ⟨hready.of_writes (hgood.numbered number) (hrely.writes number), ?_⟩
  rw [(hrely.writes number).feed, hrely.aligner]
  exact hread

theorem common_spec {common : ℕ} (hcommon : rig.common lanes = some common)
    (hready : ∀ number < lanes, (rig.lanes number).Ready) :
    Lined lanes common (List.range lanes) true rig := by
  unfold Rig.common at hcommon
  obtain ⟨hall, hgreatest⟩ := Option.ite_none_right_eq_some.mp hcommon
  obtain ⟨greatest, hmax, hsome⟩ := Option.bind_eq_some_iff.mp hgreatest
  obtain ⟨-, hvalue⟩ := Option.ite_none_right_eq_some.mp hsome
  have hle : greatest ≤ (common : ℤ) := by
    rw [← Option.some.inj hvalue]
    omega
  intro number hnumber
  refine ⟨hready number hnumber, ?_⟩
  have hposition := List.all_eq_true.mp hall _ (List.mem_map_of_mem (List.mem_range.mpr hnumber))
  cases hread : (rig.lanes number).feed.readIndex with
  | none =>
    rw [hread] at hposition
    cases hposition
  | some read =>
    refine ⟨read, rfl, ?_, fun hnot ↦ absurd (List.mem_range.mpr hnumber) hnot⟩
    have hmem : (read : ℤ) - rig.aligner.offsets number ∈ ((List.range lanes).map fun number ↦
        (rig.lanes number).feed.readIndex.map fun read ↦
          (read : ℤ) - rig.aligner.offsets number).filterMap id := by
      apply List.mem_filterMap.mpr
      refine ⟨_, List.mem_map_of_mem (List.mem_range.mpr hnumber), ?_⟩
      rw [hread]
      rfl
    have hbound := (List.max?_eq_some_iff.mp hmax).2 _ hmem
    omega

theorem lineUp_skip {common number read : ℕ} (hread : (rig.lanes number).feed.readIndex = some read)
    (htarget : 0 ≤ (common : ℤ) + rig.aligner.offsets number ∧
      (common : ℤ) + rig.aligner.offsets number < 2 ^ 64)
    (hlt : ¬((common : ℤ) + rig.aligner.offsets number).toNat ≤ read) :
    ∃ aligner notes, aligner.offsets = rig.aligner.offsets ∧
      rig.lineUp common number =
        (some (decide (((common : ℤ) + rig.aligner.offsets number).toNat - read ≤
          ((rig.lanes number).skip (min (((common : ℤ) + rig.aligner.offsets number).toNat - read)
            (rig.lanes number).feed.skippable)).1)),
          { rig.setLane number ((rig.lanes number).skip
              (min (((common : ℤ) + rig.aligner.offsets number).toNat - read)
                (rig.lanes number).feed.skippable)).2 with
            aligner := aligner, notes := notes }) := by
  unfold Rig.lineUp
  simp only [htarget, not_true, if_false, hread, if_neg hlt, and_self]
  cases rig.aligner.counts with
  | true =>
    by_cases hrealigning : rig.aligner.realigning = true
    · simp only [Rig.setLane, hrealigning, if_true]
      refine ⟨_, _, ?_, rfl⟩
      rfl
    · simp only [Rig.setLane, hrealigning, if_true, Bool.false_eq_true, if_false]
      refine ⟨_, _, ?_, rfl⟩
      rfl
  | false =>
    by_cases hrealigning : rig.aligner.realigning = true
    · simp only [Rig.setLane, hrealigning, if_true, Bool.false_eq_true, if_false]
      refine ⟨_, _, ?_, rfl⟩
      rfl
    · simp only [Rig.setLane, hrealigning, Bool.false_eq_true, if_false]
      refine ⟨_, _, ?_, rfl⟩
      rfl

theorem guar_same (rig : Rig S) (aligner : Aligner) (notes : AlignNotes) :
    ReaderGuar lanes given rig { rig with aligner := aligner, notes := notes } :=
  ⟨fun number ↦ .refl (given number) (rig.lanes number), fun hkept ↦ ⟨hkept.exact, hkept.apart, hkept.behind⟩⟩

/-- A lane that stands at or before the common position goes on to it. -/
theorem lineUp_spec {common number read : ℕ} (hgood : Good lanes given rig)
    (hready : (rig.lanes number).Ready) (hread : (rig.lanes number).feed.readIndex = some read)
    (hle : (read : ℤ) ≤ common + rig.aligner.offsets number) :
    ReaderGuar lanes given rig (rig.lineUp common number).2 ∧
      ∀ reached, (rig.lineUp common number).1 = some reached →
        (rig.lineUp common number).2.aligner.offsets = rig.aligner.offsets ∧
        (∀ other, other ≠ number → (rig.lineUp common number).2.lanes other = rig.lanes other) ∧
        ((rig.lineUp common number).2.lanes number).Ready ∧
        ∃ later, ((rig.lineUp common number).2.lanes number).feed.readIndex = some later ∧
          (later : ℤ) ≤ common + rig.aligner.offsets number ∧
          (reached = true → (later : ℤ) = common + rig.aligner.offsets number) := by
  by_cases htarget : 0 ≤ (common : ℤ) + rig.aligner.offsets number ∧
      (common : ℤ) + rig.aligner.offsets number < 2 ^ 64
  · by_cases hlt : ((common : ℤ) + rig.aligner.offsets number).toNat ≤ read
    · have hstays : rig.lineUp common number = (some true, rig) := by
        unfold Rig.lineUp
        simp only [htarget, not_true, if_false, hread, if_pos hlt, and_self]
      rw [hstays]
      refine ⟨guar_same rig _ _, ?_⟩
      rintro reached -
      exact ⟨rfl, fun _ _ ↦ rfl, hready, read, hread, hle, fun _ ↦ by omega⟩
    · obtain ⟨aligner, notes, hoffsets, hskip⟩ := lineUp_skip hread htarget hlt
      obtain ⟨hcount, hreads, hafter, hlater⟩ := Lane.skip_spec (hgood.numbered number) hready hread
        (Nat.min_le_right (((common : ℤ) + rig.aligner.offsets number).toNat - read)
          (rig.lanes number).feed.skippable)
      rw [hskip]
      refine ⟨guar_setLane hreads ?_, ?_⟩
      · intro other hother
        rw [hread, Option.mem_some_iff] at hother
        exact ⟨_, hlater, hother ▸ Nat.le_add_right _ _⟩
      · rintro reached ⟨⟩
        refine ⟨hoffsets, fun other hother ↦ setLane_of_ne rig _ hother, ?_, ?_⟩
        · show ((rig.setLane number _).lanes number).Ready
          rw [setLane_self]
          exact hafter
        · refine ⟨read + min (((common : ℤ) + rig.aligner.offsets number).toNat - read)
            (rig.lanes number).feed.skippable, ?_, by omega, ?_⟩
          · show ((rig.setLane number _).lanes number).feed.readIndex = _
            rw [setLane_self]
            exact hlater
          · intro hreached
            rw [decide_eq_true_eq, hcount] at hreached
            omega
  · refine ⟨?_, ?_⟩
    · rw [Rig.lineUp, if_pos htarget]
      exact guar_same rig _ _
    · intro reached hreached
      rw [Rig.lineUp, if_pos htarget] at hreached
      cases hreached

theorem brings_lineUpAll (common : ℕ) (rest : List ℕ) (aligned : Bool) (hrest : ∀ number ∈ rest, number < lanes) :
    Brings lanes given (Lined lanes common rest aligned) (lineUpAll common rest aligned)
      fun result (rig : Rig S) ↦ ∀ reached, result = some reached → Lined lanes common [] reached rig := by
  induction rest generalizing aligned with
  | nil =>
    apply Brings.pure (some aligned) (holds_lined common [] aligned)
    rintro rig hlined reached ⟨⟩
    exact hlined
  | cons number rest ih =>
    have hstep : ∀ result : Option Bool, Holds lanes given fun rig : Rig S ↦
        ∀ reached, result = some reached → Lined lanes common rest (aligned && reached) rig :=
      fun result before after hrely hgood hlined reached hreached ↦
        holds_lined common rest _ before after hrely hgood (hlined reached hreached)
    unfold lineUpAll
    apply Brings.bind (Brings.access (holds_lined common _ aligned) hstep ?_)
    · intro result
      cases result with
      | none =>
        apply Brings.pure none (hstep none)
        exact fun rig _ reached hreached ↦ nomatch hreached
      | some reached =>
        exact (ih (aligned && reached) fun other hother ↦ hrest other (List.mem_cons_of_mem _ hother)).imp
          (fun rig hrig ↦ hrig reached rfl) fun _ _ hafter ↦ hafter
    · intro rig hgood hlined
      obtain ⟨hready, read, hread, hle, -⟩ := hlined number (hrest number List.mem_cons_self)
      obtain ⟨hguar, hspec⟩ := lineUp_spec hgood hready hread hle
      refine ⟨hguar, ?_⟩
      intro reached hreached
      obtain ⟨hoffsets, hothers, hafter, later, hlater, hbound, hequal⟩ := hspec reached hreached
      intro other hother
      rw [hoffsets]
      by_cases hsame : other = number
      · subst hsame
        refine ⟨hafter, later, hlater, hbound, ?_⟩
        intro _ hboth
        exact hequal (Bool.and_eq_true_iff.mp hboth).2
      · rw [hothers other hsame]
        obtain ⟨hready, read, hread, hle, hpast⟩ := hlined other hother
        refine ⟨hready, read, hread, hle, ?_⟩
        intro hnot hboth
        exact hpast (List.not_mem_cons_of_ne_of_not_mem hsame hnot) (Bool.and_eq_true_iff.mp hboth).1

theorem brings_alignAll (fuel rounds : ℕ) :
    Brings lanes given (fun _ ↦ True) (alignAll lanes fuel rounds)
      fun result (rig : Rig S) ↦ ∀ common, result = some common → Lined lanes common [] true rig := by
  have hnone : Holds lanes given fun _ : Rig S ↦ True := fun _ _ _ _ _ ↦ trivial
  induction rounds with
  | zero => exact Brings.pure none hnone fun rig _ common hcommon ↦ nomatch hcommon
  | succ rounds ih =>
    have hready : Holds lanes given fun rig : Rig S ↦ ∀ number < lanes, (rig.lanes number).Ready :=
      fun before after hrely hgood hbefore number hnumber ↦
        (hbefore number hnumber).of_writes (hgood.numbered number) (hrely.writes number)
    have htarget : ∀ result : Option ℕ, Holds lanes given fun rig : Rig S ↦
        ∀ common, result = some common → Lined lanes common (List.range lanes) true rig :=
      fun result before after hrely hgood hlined common hcommon ↦
        holds_lined common _ _ before after hrely hgood (hlined common hcommon)
    unfold alignAll
    apply Brings.bind (brings_settle fuel)
    intro _
    apply Brings.bind (Brings.access hready htarget ?_)
    · intro result
      cases result with
      | none => exact Brings.pure none (htarget none) fun rig _ common hcommon ↦ nomatch hcommon
      | some target =>
        apply Brings.bind (Q := fun result rig ↦ ∀ reached, result = some reached →
          Lined lanes target [] reached rig)
        · exact (brings_lineUpAll target _ true fun number ↦ List.mem_range.mp).imp
            (fun rig hrig ↦ hrig target rfl) fun _ _ hafter ↦ hafter
        · intro reached
          have hlined : Holds lanes given fun rig : Rig S ↦
              ∀ value, reached = some value → Lined lanes target [] value rig :=
            fun before after hrely hgood hbefore value hvalue ↦
              holds_lined target _ _ before after hrely hgood (hbefore value hvalue)
          match reached with
          | none => exact Brings.pure none hlined fun rig _ common hcommon ↦ nomatch hcommon
          | some true =>
            apply Brings.pure (some target) hlined
            rintro rig hrig common ⟨⟩
            exact hrig true rfl
          | some false => exact ih.imp (fun _ _ ↦ trivial) fun _ _ hafter ↦ hafter
    · rintro rig hgood hrig
      exact ⟨guar_same rig _ _, fun common hcommon ↦ common_spec hcommon hrig⟩

end Sdrmm.Align
