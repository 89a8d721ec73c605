import Sdrmm.Engine.AlignReader

/-!
# Coherent delivery

The reader and the writers of all lanes run together.  In every state that they reach, a delivered block has
the sample of each lane that was written at the block's index plus the lane's offset, and the blocks of a
lane do not overlap.
-/

namespace Sdrmm.Align

variable {S : Type} {lanes : ℕ} {given : ℕ → ℕ → Option S} {rig : Rig S}

/-! ## Taking -/

theorem count_le {number : ℕ} (hnumber : number < lanes) :
    rig.count lanes ≤ (rig.lanes number).feed.ready ∧ rig.count lanes ≤ alignBlock := by
  refine ⟨?_, Nat.min_le_right _ _⟩
  apply Nat.le_trans (Nat.min_le_left _ _)
  have hmem : (rig.lanes number).feed.ready ∈
      (List.range lanes).map fun number ↦ (rig.lanes number).feed.ready :=
    List.mem_map_of_mem (List.mem_range.mpr hnumber)
  cases hmin : ((List.range lanes).map fun number ↦ (rig.lanes number).feed.ready).min? with
  | none => exact Nat.zero_le _
  | some least => exact (List.min?_eq_some_iff.mp hmin).2 _ hmem

/-- The lanes in `rest` stand at the common position; from the others the block has been taken. -/
structure Taken (lanes : ℕ) (given : ℕ → ℕ → Option S) (common count : ℕ) (rest : List ℕ) (rig : Rig S) :
    Prop where
  nodup : rest.Nodup
  size : count ≤ alignBlock
  behind : ∀ number < lanes, ∀ block ∈ rig.blocks,
    block.stop number ≤ common + rig.aligner.offsets number
  left : ∀ number < lanes, number ∈ rest → (rig.lanes number).Ready ∧
    count ≤ (rig.lanes number).feed.ready ∧
    ∃ read, (rig.lanes number).feed.readIndex = some read ∧ (read : ℤ) = common + rig.aligner.offsets number
  done : ∀ number < lanes, number ∉ rest → ∃ read : ℕ,
    (rig.lanes number).feed.readIndex = some (read + count) ∧
    (read : ℤ) = common + rig.aligner.offsets number ∧
    (rig.lanes number).raw.map some = (List.range' read count).map (given number)

theorem holds_taken (common count : ℕ) (rest : List ℕ) :
    Holds lanes given (Taken lanes given common count rest) := by
  intro before after hrely hgood htaken
  refine ⟨htaken.nodup, htaken.size, ?_, ?_, ?_⟩
  · rw [hrely.blocks, hrely.aligner]
    exact htaken.behind
  · intro number hnumber hrest
    obtain ⟨hready, hcount, hread⟩ := htaken.left number hnumber hrest
    rw [(hrely.writes number).feed, hrely.aligner]
    exact ⟨hready.of_writes (hgood.numbered number) (hrely.writes number), hcount, hread⟩
  · intro number hnumber hrest
    rw [(hrely.writes number).feed, (hrely.writes number).raw, hrely.aligner]
    exact htaken.done number hnumber hrest

theorem brings_takeInto (common count number : ℕ) (rest : List ℕ) (hnumber : number < lanes) :
    Brings lanes given (Taken lanes given common count (number :: rest))
      (onLane number fun lane ↦ ((), lane.takeInto count))
      fun _ ↦ Taken lanes given common count rest := by
  apply Brings.access (holds_taken common count _) fun _ ↦ holds_taken common count rest
  intro rig hgood htaken
  obtain ⟨hready, hcount, read, hread, hposition⟩ := htaken.left number hnumber List.mem_cons_self
  obtain ⟨hreads, hlater, hraw⟩ :=
    Lane.takeInto_spec (hgood.numbered number) hready hread hcount htaken.size
  obtain ⟨hnot, hnodup⟩ := List.nodup_cons.mp htaken.nodup
  refine ⟨guar_setLane hreads ?_, hnodup, htaken.size, htaken.behind, ?_, ?_⟩
  · intro other hother
    rw [hread, Option.mem_some_iff] at hother
    exact ⟨_, hlater, hother ▸ Nat.le_add_right _ _⟩
  · intro other hother hrest
    have hne : other ≠ number := fun hsame ↦ hnot (hsame ▸ hrest)
    show ((rig.setLane number _).lanes other).Ready ∧ count ≤ ((rig.setLane number _).lanes other).feed.ready ∧
      ∃ read, ((rig.setLane number _).lanes other).feed.readIndex = some read ∧ _
    rw [setLane_of_ne rig _ hne]
    exact htaken.left other hother (List.mem_cons_of_mem _ hrest)
  · intro other hother hrest
    by_cases hsame : other = number
    · subst hsame
      refine ⟨read, ?_, hposition, ?_⟩
      · show ((rig.setLane other _).lanes other).feed.readIndex = _
        rw [setLane_self]
        exact hlater
      · show ((rig.setLane other _).lanes other).raw.map some = _
        rw [setLane_self]
        exact hraw
    · show ∃ read, ((rig.setLane number _).lanes other).feed.readIndex = some (read + count) ∧ _ ∧
        ((rig.setLane number _).lanes other).raw.map some = _
      rw [setLane_of_ne rig _ hsame]
      exact htaken.done other hother (List.not_mem_cons_of_ne_of_not_mem hsame hrest)

/-- The block stands ready for the caller. -/
def Delivered (lanes : ℕ) (given : ℕ → ℕ → Option S) (count : ℕ) (rig : Rig S) : Prop :=
  Taken lanes given rig.aligner.index count [] rig

theorem holds_delivered (count : ℕ) : Holds lanes given (Delivered lanes given count) := by
  intro before after hrely hgood hdelivered
  unfold Delivered
  rw [hrely.aligner]
  exact holds_taken _ count [] before after hrely hgood hdelivered

theorem brings_takeAll (common count : ℕ) :
    Brings lanes given (Taken lanes given common count (List.range lanes)) (takeAll lanes common count)
      fun result rig ↦ ∀ taken, result = some taken → Delivered lanes given taken rig := by
  unfold takeAll
  apply Brings.bind (Q := fun _ ↦ Taken lanes given common count [])
  · refine Brings.imp (Brings.each (fun rest rig ↦
      (∀ number ∈ rest, number < lanes) ∧ Taken lanes given common count rest rig) ?_ ?_ (List.range lanes))
      (fun rig htaken ↦ ⟨fun _ ↦ List.mem_range.mp, htaken⟩) fun _ _ hafter ↦ hafter.2
    · exact fun rest before after hrely hgood hrest ↦
        ⟨hrest.1, holds_taken common count rest before after hrely hgood hrest.2⟩
    · rintro number rest rig hgood ⟨hrest, htaken⟩
      apply (brings_takeInto common count number rest (hrest number List.mem_cons_self) rig hgood htaken).imp
      rintro _ after ⟨hafter, hleft⟩
      exact ⟨hafter, fun other hother ↦ hrest other (List.mem_cons_of_mem _ hother), hleft⟩
  · intro _
    apply Brings.bind (Brings.access (holds_taken common count []) (fun _ ↦ holds_delivered count) ?_)
    · intro _
      apply Brings.pure (some count) (holds_delivered count)
      rintro rig hdelivered taken ⟨⟩
      exact hdelivered
    · intro rig _ htaken
      exact ⟨guar_same rig _ _, htaken.nodup, htaken.size, htaken.behind, htaken.left, htaken.done⟩

/-- The lanes that stand at the common position give a block. -/
theorem taken_of_lined {common : ℕ} (hgood : Good lanes given rig) (hlined : Lined lanes common [] true rig) :
    Taken lanes given common (rig.count lanes) (List.range lanes)
      { rig with aligner := { rig.aligner with realigning := false } } := by
  by_cases hlanes : lanes = 0
  · subst hlanes
    exact ⟨List.nodup_range, Nat.min_le_right _ _, fun _ hlt ↦ absurd hlt (Nat.not_lt_zero _),
      fun _ hlt ↦ absurd hlt (Nat.not_lt_zero _), fun _ hlt ↦ absurd hlt (Nat.not_lt_zero _)⟩
  · refine ⟨List.nodup_range, (count_le (Nat.pos_of_ne_zero hlanes)).2, ?_, ?_, ?_⟩
    · intro number hnumber block hblock
      obtain ⟨-, read, hread, -, hposition⟩ := hlined number hnumber
      obtain ⟨later, hlater, hle⟩ := hgood.kept.behind block hblock number hnumber
      have hsame : read = later := Option.some.inj (hread.symm.trans hlater)
      rw [← hposition List.not_mem_nil rfl, hsame]
      exact hle
    · intro number hnumber _
      obtain ⟨hready, read, hread, -, hposition⟩ := hlined number hnumber
      exact ⟨hready, (count_le hnumber).1, read, hread, hposition List.not_mem_nil rfl⟩
    · intro number hnumber hnot
      exact absurd (List.mem_range.mpr hnumber) hnot

theorem brings_next (fuel : ℕ) :
    Brings lanes given (fun _ ↦ True) (next lanes fuel)
      fun result rig ↦ ∀ count, result = some count → Delivered lanes given count rig := by
  have htrue : Holds lanes given fun _ : Rig S ↦ True := fun _ _ _ _ _ ↦ trivial
  unfold next
  split
  · exact Brings.pure none htrue fun rig _ count hcount ↦ nomatch hcount
  · apply Brings.bind (brings_alignAll fuel alignRounds)
    intro result
    have hlined : Holds lanes given fun rig : Rig S ↦
        ∀ common, result = some common → Lined lanes common [] true rig :=
      fun before after hrely hgood hbefore common hcommon ↦
        holds_lined common [] true before after hrely hgood (hbefore common hcommon)
    cases result with
    | none => exact Brings.pure none hlined fun rig _ count hcount ↦ nomatch hcount
    | some common =>
      apply Brings.bind (Brings.access hlined (fun count ↦ holds_taken common count (List.range lanes)) ?_)
      · intro count
        split
        · exact Brings.pure none (holds_taken common count _) fun rig _ taken htaken ↦ nomatch htaken
        · exact brings_takeAll common count
      · intro rig hgood hrig
        exact ⟨guar_same rig _ _, taken_of_lined hgood (hrig common rfl)⟩

/-- The caller notes the block. -/
theorem guar_record {count : ℕ} (hdelivered : Delivered lanes given count rig) :
    ReaderGuar lanes given rig (rig.record count) := by
  refine ⟨fun number ↦ .refl (given number) (rig.lanes number), fun hkept ↦ ⟨?_, ?_, ?_⟩⟩
  · intro block hblock number hnumber
    rcases List.mem_cons.mp hblock with rfl | hblock
    · obtain ⟨read, -, hposition, hraw⟩ := hdelivered.done number hnumber List.not_mem_nil
      exact ⟨read, hposition, hraw⟩
    · exact hkept.exact block hblock number hnumber
  · apply List.pairwise_cons.mpr
    refine ⟨?_, hkept.apart⟩
    intro earlier hearlier number hnumber
    exact hdelivered.behind number hnumber earlier hearlier
  · intro block hblock number hnumber
    rcases List.mem_cons.mp hblock with rfl | hblock
    · obtain ⟨read, hread, hposition, -⟩ := hdelivered.done number hnumber List.not_mem_nil
      refine ⟨read + count, hread, ?_⟩
      show (rig.aligner.index : ℤ) + rig.aligner.offsets number + count ≤ _
      omega
    · exact hkept.behind block hblock number hnumber

theorem brings_reader (reads : List ReaderCall) :
    Brings lanes given (fun _ ↦ True) (reader lanes reads) fun _ _ ↦ True := by
  have htrue : Holds lanes given fun _ : Rig S ↦ True := fun _ _ _ _ _ ↦ trivial
  apply Brings.each (fun _ _ ↦ True) (fun _ ↦ htrue)
  rintro call -
  cases call with
  | setOffsets offsets => exact Brings.access htrue (fun _ ↦ htrue) fun rig _ _ ↦ ⟨guar_same rig _ _, trivial⟩
  | clearNotes => exact Brings.access htrue (fun _ ↦ htrue) fun rig _ _ ↦ ⟨guar_same rig _ _, trivial⟩
  | settle fuel => exact (brings_settle fuel).imp (fun _ _ ↦ trivial) fun _ _ _ ↦ trivial
  | next fuel =>
    apply Brings.bind (brings_next fuel)
    intro result
    have hdelivered : Holds lanes given fun rig : Rig S ↦
        ∀ count, result = some count → Delivered lanes given count rig :=
      fun before after hrely hgood hbefore count hcount ↦
        holds_delivered count before after hrely hgood (hbefore count hcount)
    cases result with
    | none => exact Brings.pure () hdelivered fun _ _ ↦ trivial
    | some count =>
      apply Brings.access hdelivered fun _ ↦ htrue
      exact fun rig _ hrig ↦ ⟨guar_record (hrig count rfl), trivial⟩

/-! ## All programs together -/

/-- New lanes, each with room for as many samples as its tap has. -/
def Rig.new (capacity : ℕ → { n : ℕ // tapMin ≤ n }) : Rig S where
  lanes number := { capacity := (capacity number).1, capacity_ge := (capacity number).2 }

theorem numbered_new (capacity : ℕ → { n : ℕ // tapMin ≤ n }) (given : ℕ → Option S) (number : ℕ) :
    ((Rig.new capacity).lanes number : Lane S).Numbered given :=
  ⟨fun _ ↦ rfl, fun _ ↦ rfl, (fun _ hstart ↦ nomatch hstart), fun _ hstart ↦ nomatch hstart⟩

theorem good_new (capacity : ℕ → { n : ℕ // tapMin ≤ n }) : Good lanes given (Rig.new capacity) :=
  ⟨fun number ↦ numbered_new capacity (given number) number,
    ⟨(fun _ hblock ↦ nomatch hblock), .nil, fun _ hblock ↦ nomatch hblock⟩⟩

theorem rely_of_writer (given : ℕ → ℕ → Option S) {number : ℕ} {before after : Rig S}
    (hguar : WriterGuar (given number) number before after) : ReaderRely given before after where
  aligner := hguar.aligner
  blocks := hguar.blocks
  writes := by
    intro other
    by_cases hsame : other = number
    · subst hsame
      exact hguar.writes
    · rw [hguar.lanes other hsame]
      exact .refl _ _

/-- What each program relies on, the reader as `none`. -/
def threadRely (calls : ℕ → List (WriterCall S)) : Option ℕ → Rig S → Rig S → Prop
  | none => ReaderRely fun number ↦ written (calls number)
  | some number => WriterRely (written (calls number)) number

def threadGuar (lanes : ℕ) (calls : ℕ → List (WriterCall S)) : Option ℕ → Rig S → Rig S → Prop
  | none => ReaderGuar lanes fun number ↦ written (calls number)
  | some number => WriterGuar (written (calls number)) number

theorem threadRely_refl (calls : ℕ → List (WriterCall S)) (thread : Option ℕ) (rig : Rig S) :
    threadRely calls thread rig rig := by
  cases thread with
  | none => exact .refl _ rig
  | some number => exact Lane.Reads.refl _ _

theorem threadRely_trans (calls : ℕ → List (WriterCall S)) (thread : Option ℕ) (a b c : Rig S)
    (hfirst : threadRely calls thread a b) (hsecond : threadRely calls thread b c) :
    threadRely calls thread a c := by
  cases thread with
  | none => exact ReaderRely.trans hfirst hsecond
  | some number => exact Lane.Reads.trans hfirst hsecond

/-- The programs keep to what the others rely on. -/
theorem threadRely_of_guar (calls : ℕ → List (WriterCall S)) (thread other : Option ℕ) (hne : thread ≠ other)
    (a b : Rig S) (hguar : threadGuar lanes calls thread a b) : threadRely calls other a b := by
  cases thread with
  | none =>
    cases other with
    | none => exact absurd rfl hne
    | some number => exact hguar.reads number
  | some number =>
    cases other with
    | none => exact rely_of_writer (fun number ↦ written (calls number)) hguar
    | some reading =>
      have hlane : b.lanes reading = a.lanes reading :=
        hguar.lanes reading fun hsame ↦ hne (congrArg some hsame.symm)
      show (a.lanes reading).Reads (written (calls reading)) (b.lanes reading)
      rw [hlane]
      exact .refl _ _

/-- Every state that the programs reach. -/
theorem good_run (lanes : ℕ) (capacity : ℕ → { n : ℕ // tapMin ≤ n }) (calls : ℕ → List (WriterCall S))
    (hordered : ∀ number, Ordered 0 (calls number)) (reads : List ReaderCall) (schedule : List (Option ℕ)) :
    Good lanes (fun number ↦ written (calls number))
      (Prog.run (programs lanes calls reads) (Rig.new capacity) schedule).2 := by
  have hsafe : ∀ thread, Prog.Safe (threadRely calls thread) (threadGuar lanes calls thread)
      (fun _ _ ↦ True) (programs lanes calls reads thread) (Rig.new capacity) := by
    intro thread
    cases thread with
    | none => exact (brings_reader reads _ (good_new capacity) trivial).imp fun _ _ _ ↦ trivial
    | some number =>
      apply safe_writer number (calls number) (hordered number) _ (numbered_new capacity _ number)
      exact ⟨fun _ ↦ ⟨rfl, rfl⟩, fun _ hindex ↦ nomatch hindex⟩
  apply Prog.inv_run (threadRely_trans calls) (threadRely_of_guar calls) _ _ _ (threadRely_refl calls) hsafe
    _ (good_new capacity)
  intro thread before after hguar hgood
  cases thread with
  | none => exact hgood.of_guar hguar
  | some number => exact hgood.of_rely (rely_of_writer (fun number ↦ written (calls number)) hguar)

/-- Blocks are coherent: the sample `k` of a lane is the one that was written at the block's index plus `k`
plus the lane's offset, and what a lane delivers goes on from block to block. -/
theorem delivered_blocks_coherent (lanes : ℕ) (capacity : ℕ → { n : ℕ // tapMin ≤ n })
    (calls : ℕ → List (WriterCall S)) (hordered : ∀ number, Ordered 0 (calls number))
    (reads : List ReaderCall) (schedule : List (Option ℕ)) :
    (∀ block ∈ (Prog.run (programs lanes calls reads) (Rig.new capacity) schedule).2.blocks,
      ∀ number < lanes, (block.raw number).length = block.count ∧ ∀ k < block.count, ∃ position : ℕ,
        (position : ℤ) = (block.index : ℤ) + k + block.offsets number ∧
          (block.raw number)[k]? = written (calls number) position) ∧
      (Prog.run (programs lanes calls reads) (Rig.new capacity) schedule).2.blocks.Pairwise
        fun later earlier ↦ ∀ number < lanes,
          (earlier.index : ℤ) + earlier.offsets number + earlier.count ≤
            (later.index : ℤ) + later.offsets number := by
  have hkept := (good_run lanes capacity calls hordered reads schedule).kept
  refine ⟨?_, hkept.apart⟩
  intro block hblock number hnumber
  obtain ⟨read, hread, hraw⟩ := hkept.exact block hblock number hnumber
  have hlength : (block.raw number).length = block.count := by
    rw [← List.length_map some, hraw, List.length_map, List.length_range']
  refine ⟨hlength, ?_⟩
  intro k hk
  refine ⟨read + k, by omega, ?_⟩
  have hsample := congrArg (·[k]?) hraw
  rw [List.getElem?_map, List.getElem?_map, List.getElem?_range' (by omega), Option.map_some, Nat.one_mul,
    List.getElem?_eq_getElem (by omega), Option.map_some, Option.some.injEq] at hsample
  rw [List.getElem?_eq_getElem (by omega)]
  exact hsample

/-- Two lanes that begin apart, each with a gap behind its first block. -/
def twoLanes : ℕ → List (WriterCall ℕ)
  | 0 => [.write [10, 11, 12] 0 7, .write [15] 5 8]
  | 1 => [.write [21, 22, 23] 1 7, .write [26] 6 8]
  | _ => []

def twoLanesDelivered : Rig ℕ :=
  (Prog.run (programs 2 twoLanes [.setOffsets [0, 1], .next 9]) (Rig.new fun _ ↦ ⟨tapMin, Nat.le_refl _⟩)
    (List.replicate 16 (some 0) ++ List.replicate 16 (some 1) ++ List.replicate 20 none)).2

theorem delivered_blocks_coherent_two :
    (∃ block ∈ twoLanesDelivered.blocks, block.count = 3 ∧ block.raw 1 = [21, 22, 23]) ∧
      ∀ block ∈ twoLanesDelivered.blocks, ∀ number < 2, ∀ k < block.count, ∃ position : ℕ,
        (position : ℤ) = (block.index : ℤ) + k + block.offsets number ∧
          (block.raw number)[k]? = written (twoLanes number) position := by
  have hordered : ∀ number, Ordered 0 (twoLanes number) := by
    intro number
    match number with
    | 0 => exact ⟨by decide, by decide, trivial⟩
    | 1 => exact ⟨by decide, by decide, trivial⟩
    | _ + 2 => trivial
  refine ⟨by decide, ?_⟩
  intro block hblock number hnumber
  exact ((delivered_blocks_coherent 2 (fun _ ↦ ⟨tapMin, Nat.le_refl _⟩) twoLanes hordered
    [.setOffsets [0, 1], .next 9] _).1 block hblock number hnumber).2

end Sdrmm.Align
