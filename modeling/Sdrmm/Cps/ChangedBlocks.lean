import Sdrmm.Cps.Image
import Sdrmm.Lib.Pieces

/-!
# Writing what has changed

`changed_blocks` of `cps/src/image.rs` cuts each segment of an image into blocks and keeps those that the
image a radio has now does not hold, and `Transfer::write` of `cps/src/transfer.rs` writes them.  An
image is a list of pieces of the memory of the radio.

`differentialWrite_iff` is when this is enough, and as little as it can be: always, but for a segment over
the whole address space, on which the cutting never ends, and for empty segments of the old image, which
hide the bytes of the segment that they lie in.
-/

namespace Sdrmm.Cps

/-! ## The blocks -/

/-- The number of bytes up to the end of a segment or a block, with the length as a `u32`. -/
def takeAt (data : List UInt8) (block offset : ℕ) : ℕ :=
  min block (data.length % addressSpace - offset)

/-- The loop over one segment, `none` if it has not ended within `fuel` passes.  As `offset` never
exceeds the length as a `u32`, their difference does not wrap. -/
def changedIn (before : Image) (addr : ℕ) (data : List UInt8) (block : ℕ) :
    ℕ → ℕ → Option (List (Piece UInt8))
  | 0, _ => none
  | fuel + 1, offset =>
      if offset < data.length then
        let take := takeAt data block offset
        if data.length < offset + take then some []
        else
          let slice := (data.drop offset).take take
          (changedIn before addr data block fuel (offset + take)).map fun blocks ↦
            if before.get (addr + offset) take ≠ some slice then (addr + offset, slice) :: blocks
            else blocks
      else some []

/-- The blocks of each segment in turn, with so many passes for each. -/
def changedFrom (before : Image) (block fuel : ℕ) : List (Piece UInt8) → Option (List (Piece UInt8))
  | [] => some []
  | (addr, data) :: segments => do
      let blocks ← changedIn before addr data block fuel 0
      let more ← changedFrom before block fuel segments
      some (blocks ++ more)

def changedBlocks (before after : Image) (block fuel : ℕ) : Option (List (Piece UInt8)) :=
  changedFrom before block fuel after.segments.entries

/-! ## Writing -/

inductive CpsError (ε : Type)
  | cancelled
  | session (error : ε)
  deriving DecidableEq

/-- What writing needs of a session with a radio. -/
structure RadioSession (σ ε : Type) where
  blockSize : ℕ
  write : σ → ℕ → List UInt8 → σ × Option ε

structure Progress where
  step : String
  done : ℕ
  total : ℕ
  deriving DecidableEq

/-- What a transfer leaves behind; `asked` are the writes that the session was asked for. -/
structure Written (σ ε : Type) where
  session : σ
  asked : List (Piece UInt8)
  reports : List Progress
  result : Except (CpsError ε) ℕ

/-- The loop of `Transfer::write`.  `cancelled` tells for each time it is asked whether the user has
cancelled by then. -/
def writeLoop {σ ε : Type} (session : RadioSession σ ε) (cancelled : ℕ → Bool) (total : ℕ) :
    ℕ → ℕ → σ → List (Piece UInt8) → Written σ ε
  | _, done, state, [] => ⟨state, [], [], .ok done⟩
  | polls, done, state, (addr, data) :: blocks =>
      if cancelled polls then ⟨state, [], [], .error .cancelled⟩
      else
        match session.write state addr data with
        | (next, some error) => ⟨next, [(addr, data)], [], .error (.session error)⟩
        | (next, none) =>
            let done := done + data.length
            let rest := writeLoop session cancelled total (polls + 1) done next blocks
            { rest with
              asked := (addr, data) :: rest.asked
              reports := ⟨"writing", done, total⟩ :: rest.reports }

def totalBytes (blocks : List (Piece UInt8)) : ℕ := (blocks.map fun block ↦ block.2.length).sum

def Transfer.write {σ ε : Type} (session : RadioSession σ ε) (cancelled : ℕ → Bool) (state : σ)
    (before after : Image) (fuel : ℕ) : Option (Written σ ε) :=
  (changedBlocks before after (max session.blockSize 1) fuel).map fun blocks ↦
    writeLoop session cancelled (totalBytes blocks) 0 0 state blocks

/-! ## What is promised -/

/-- The write of the blocks that a session was asked for is that of all of them up to the first time that
the user has cancelled or the session fails. -/
structure Performs {σ ε : Type} (session : RadioSession σ ε) (cancelled : ℕ → Bool)
    (blocks : List (Piece UInt8)) (written : Written σ ε) : Prop where
  inOrder : written.asked <+: blocks
  stops : ∀ i, cancelled i = true → written.asked.length ≤ i
  finishes : (∀ error, written.result ≠ .error (.session error)) →
    (∀ i < blocks.length, cancelled i = false) →
    written.asked = blocks ∧ written.result = .ok (totalBytes blocks)
  cancels : (∀ error, written.result ≠ .error (.session error)) →
    ∀ i < blocks.length, cancelled i = true → (∀ j < i, cancelled j = false) →
    written.asked = blocks.take i ∧ written.result = .error .cancelled

/-- What the blocks to write shall be. -/
structure Differential (before after : Image) (block : ℕ) (blocks : List (Piece UInt8)) : Prop where
  sufficient : ∀ memory : ℕ → UInt8, Piece.Agrees memory before.segments.entries →
    Piece.Agrees (Piece.overwrite memory blocks) after.segments.entries
  within : ∀ written ∈ blocks, ∀ addr, (Piece.at? written addr).isSome →
    ∃ segment ∈ after.segments.entries, (Piece.at? segment addr).isSome
  small : ∀ written ∈ blocks, written.2.length ≤ block
  minimal : (∀ segment ∈ after.segments.entries, ∃ held ∈ before.segments.entries,
    Piece.Inside segment held) → blocks = []

/-- The writes come to an end, are enough and as few as needed, and are what a transfer performs. -/
def DifferentialWrite (before after : Image) (blockSize : ℕ) : Prop :=
  ∃ fuel blocks, changedBlocks before after (max blockSize 1) fuel = some blocks ∧
    Differential before after (max blockSize 1) blocks ∧
    ∀ (σ ε : Type) (session : RadioSession σ ε) (cancelled : ℕ → Bool) (state : σ),
      session.blockSize = blockSize →
      ∃ written, Transfer.write session cancelled state before after fuel = some written ∧
        Performs session cancelled blocks written

/-- An image of segments without a common address, all within the address space. -/
structure Image.Disjoint (image : Image) : Prop where
  apart : Piece.Apart image.segments.entries
  bounded : ∀ segment ∈ image.segments.entries, segment.1 + segment.2.length ≤ addressSpace

/-- Where all of `after` is there already, no segment of `before` starts in front of a block of it and
inside the segment that holds the block. -/
def NothingHidden (before after : Image) (block : ℕ) : Prop :=
  (∀ segment ∈ after.segments.entries, ∃ held ∈ before.segments.entries,
    Piece.Inside segment held) →
  ∀ segment ∈ after.segments.entries, ∀ held ∈ before.segments.entries, Piece.Inside segment held →
    ∀ k, k * block < segment.2.length → ∀ other ∈ before.segments.entries,
      ¬(held.1 < other.1 ∧ other.1 ≤ segment.1 + k * block)

/-! ## Cutting a segment -/

/-- Block `k` of a segment. -/
def cut (segment : Piece UInt8) (block k : ℕ) : Piece UInt8 :=
  (segment.1 + k * block, (segment.2.drop (k * block)).take block)

/-- Whether an image does not hold a block. -/
def Changed (before : Image) (written : Piece UInt8) : Prop :=
  before.get written.1 written.2.length ≠ some written.2

instance (before : Image) (written : Piece UInt8) : Decidable (Changed before written) :=
  inferInstanceAs (Decidable (before.get written.1 written.2.length ≠ some written.2))

section Cut

variable {before : Image} {addr : ℕ} {data : List UInt8} {block fuel : ℕ}

theorem cut_length (segment : Piece UInt8) (block k : ℕ) :
    (cut segment block k).2.length = min block (segment.2.length - k * block) := by
  rw [cut, List.length_take, List.length_drop]

/-- One pass that does not end the loop. -/
theorem changedIn_pass (hlength : data.length < addressSpace) {k : ℕ} (hk : k * block < data.length) :
    let next := k * block + (cut (addr, data) block k).2.length
    changedIn before addr data block (fuel + 1) (k * block) =
      (changedIn before addr data block fuel next).map fun blocks ↦
        if before.get (cut (addr, data) block k).1 (cut (addr, data) block k).2.length ≠
          some (cut (addr, data) block k).2 then cut (addr, data) block k :: blocks else blocks := by
  intro next
  have htake : takeAt data block (k * block) = (cut (addr, data) block k).2.length := by
    rw [takeAt, Nat.mod_eq_of_lt hlength, cut, List.length_take, List.length_drop]
  have hslice : (data.drop (k * block)).take (takeAt data block (k * block)) =
      (cut (addr, data) block k).2 := by
    rw [takeAt, Nat.mod_eq_of_lt hlength, ← List.length_drop, ← List.take_eq_take_min]
    rfl
  have hroom : ¬data.length < k * block + takeAt data block (k * block) := by
    rw [takeAt, Nat.mod_eq_of_lt hlength]
    omega
  rw [changedIn, if_pos hk]
  simp only [if_neg hroom, hslice]
  rw [htake]
  rfl

/-- What the loop collects from some block or the end on. -/
theorem changedIn_spec (hblock : 1 ≤ block) (hlength : data.length < addressSpace) {offset : ℕ}
    (hoffset : (∃ k, offset = k * block) ∨ data.length ≤ offset)
    (hpos : 0 < fuel) (hfuel : data.length < offset + fuel) :
    ∃ blocks, changedIn before addr data block fuel offset = some blocks ∧
      ∀ written, written ∈ blocks ↔ ∃ k, offset ≤ k * block ∧ k * block < data.length ∧
        written = cut (addr, data) block k ∧ Changed before written := by
  induction fuel generalizing offset with
  | zero => exact absurd hpos (lt_irrefl 0)
  | succ fuel ih =>
    by_cases hmore : offset < data.length
    · obtain ⟨k, rfl⟩ := hoffset.resolve_right (not_le.mpr hmore)
      have hcut : (cut (addr, data) block k).2.length = min block (data.length - k * block) :=
        cut_length (addr, data) block k
      have hstart : (∃ j, k * block + (cut (addr, data) block k).2.length = j * block) ∨
          data.length ≤ k * block + (cut (addr, data) block k).2.length := by
        rw [hcut]
        rcases le_total block (data.length - k * block) with hfull | hshort
        · left
          exact ⟨k + 1, by rw [min_eq_left hfull, Nat.succ_mul]⟩
        · right
          rw [min_eq_right hshort]
          omega
      obtain ⟨blocks, hblocks, hmem⟩ := ih hstart (by omega) (by rw [hcut]; omega)
      refine ⟨_, (changedIn_pass hlength hmore).trans (by rw [hblocks]; rfl), ?_⟩
      have hnext (j : ℕ) (hj : j * block < data.length) :
          k * block ≤ j * block ↔ j = k ∨ k * block + (cut (addr, data) block k).2.length ≤ j * block := by
        constructor
        · intro hle
          rcases Nat.lt_or_ge k j with hlt | hge
          · have hstep : (k + 1) * block ≤ j * block := Nat.mul_le_mul_right _ hlt
            rw [Nat.succ_mul] at hstep
            right
            omega
          · left
            exact le_antisymm hge (Nat.le_of_mul_le_mul_right hle hblock)
        · rintro (rfl | hle)
          · exact le_rfl
          · omega
      intro written
      have hlater : written ∈ blocks ↔ ∃ j, (k * block + (cut (addr, data) block k).2.length ≤ j * block) ∧
          j * block < data.length ∧ written = cut (addr, data) block j ∧ Changed before written :=
        hmem written
      have hsplit : (∃ j, k * block ≤ j * block ∧ j * block < data.length ∧
          written = cut (addr, data) block j ∧ Changed before written) ↔
          (written = cut (addr, data) block k ∧ Changed before written) ∨ written ∈ blocks := by
        rw [hlater]
        constructor
        · rintro ⟨j, hle, hlt, heq, hchanged⟩
          rcases (hnext j hlt).mp hle with rfl | hle
          · exact Or.inl ⟨heq, hchanged⟩
          · exact Or.inr ⟨j, hle, hlt, heq, hchanged⟩
        · rintro (⟨heq, hchanged⟩ | ⟨j, hle, hlt, heq, hchanged⟩)
          · exact ⟨k, le_rfl, hmore, heq, hchanged⟩
          · exact ⟨j, (hnext j hlt).mpr (Or.inr hle), hlt, heq, hchanged⟩
      rw [hsplit]
      change written ∈ (if Changed before (cut (addr, data) block k) then
        cut (addr, data) block k :: blocks else blocks) ↔ _
      by_cases hchanged : Changed before (cut (addr, data) block k)
      · rw [if_pos hchanged, List.mem_cons]
        constructor
        · rintro (rfl | hold)
          · exact Or.inl ⟨rfl, hchanged⟩
          · exact Or.inr hold
        · rintro (⟨heq, _⟩ | hold)
          · exact Or.inl heq
          · exact Or.inr hold
      · rw [if_neg hchanged]
        constructor
        · exact Or.inr
        · rintro (⟨rfl, hnew⟩ | hold)
          · exact absurd hnew hchanged
          · exact hold
    · refine ⟨[], by rw [changedIn, if_neg hmore], ?_⟩
      intro written
      constructor
      · exact fun hmem ↦ absurd hmem List.not_mem_nil
      · rintro ⟨k, hle, hlt, _⟩
        omega

/-- A segment over the whole address space has length zero as a `u32`, and the loop stays where it is. -/
theorem changedIn_stuck (hlength : data.length = addressSpace) (fuel : ℕ) :
    changedIn before addr data block fuel 0 = none := by
  induction fuel with
  | zero => rfl
  | succ fuel ih =>
    have htake : takeAt data block 0 = 0 := by rw [takeAt, hlength, Nat.mod_self, Nat.min_zero]
    have hpos : 0 < data.length := by
      rw [hlength, addressSpace]
      exact Nat.two_pow_pos 32
    rw [changedIn, if_pos hpos]
    simp only [htake, add_zero, ih, Option.map_none]
    rw [if_neg (Nat.not_lt_zero _)]

/-- More passes change nothing once the loop has ended. -/
theorem changedIn_mono {offset : ℕ} {blocks : List (Piece UInt8)}
    (hblocks : changedIn before addr data block fuel offset = some blocks) (spare : ℕ) :
    changedIn before addr data block (fuel + spare) offset = some blocks := by
  induction fuel generalizing offset blocks with
  | zero => exact absurd hblocks (Option.some_ne_none blocks).symm
  | succ fuel ih =>
    rw [Nat.succ_add, changedIn]
    rw [changedIn] at hblocks
    by_cases hmore : offset < data.length
    · rw [if_pos hmore] at hblocks ⊢
      by_cases hroom : data.length < offset + takeAt data block offset
      · simp only [if_pos hroom] at hblocks ⊢
        exact hblocks
      · simp only [if_neg hroom] at hblocks ⊢
        obtain ⟨rest, hrest, rfl⟩ := Option.map_eq_some_iff.mp hblocks
        rw [ih hrest, Option.map_some]
    · rw [if_neg hmore] at hblocks ⊢
      exact hblocks

end Cut

section Blocks

variable {before : Image} {block fuel : ℕ} {segments : List (Piece UInt8)}

theorem changedFrom_spec (before : Image) (hblock : 1 ≤ block)
    (hlength : ∀ segment ∈ segments, segment.2.length < addressSpace) :
    ∃ blocks, changedFrom before block addressSpace segments = some blocks ∧
      ∀ written, written ∈ blocks ↔ ∃ segment ∈ segments, ∃ k, k * block < segment.2.length ∧
        written = cut segment block k ∧ Changed before written := by
  induction segments with
  | nil => exact ⟨[], rfl, by simp⟩
  | cons segment segments ih =>
    obtain ⟨addr, data⟩ := segment
    rw [List.forall_mem_cons] at hlength
    obtain ⟨more, hmore, hmem⟩ := ih hlength.2
    have hdata : data.length < addressSpace := hlength.1
    have hfuel : data.length < 0 + addressSpace := by rwa [Nat.zero_add]
    have hpos : 0 < addressSpace := Nat.two_pow_pos 32
    have hspec : ∃ blocks, changedIn before addr data block addressSpace 0 = some blocks ∧
        ∀ written, written ∈ blocks ↔ ∃ k, 0 ≤ k * block ∧ k * block < data.length ∧
          written = cut (addr, data) block k ∧ Changed before written :=
      changedIn_spec hblock hdata (Or.inl ⟨0, (Nat.zero_mul block).symm⟩) hpos hfuel
    obtain ⟨blocks, hblocks, hfirst⟩ := hspec
    refine ⟨blocks ++ more, by rw [changedFrom, hblocks, hmore]; rfl, ?_⟩
    intro written
    rw [List.mem_append, hfirst, hmem]
    simp only [List.mem_cons, exists_eq_or_imp, Nat.zero_le, true_and]

theorem changedFrom_mono {blocks : List (Piece UInt8)}
    (hblocks : changedFrom before block fuel segments = some blocks) (spare : ℕ) :
    changedFrom before block (fuel + spare) segments = some blocks := by
  induction segments generalizing blocks with
  | nil => exact hblocks
  | cons segment segments ih =>
    rw [changedFrom] at hblocks ⊢
    obtain ⟨first, hfirst, hrest⟩ := Option.bind_eq_some_iff.mp hblocks
    obtain ⟨more, hmore, hall⟩ := Option.bind_eq_some_iff.mp hrest
    rw [changedIn_mono hfirst, ih hmore]
    exact hall

theorem changedFrom_stuck {segment : Piece UInt8} (hmem : segment ∈ segments)
    (hlength : segment.2.length = addressSpace) :
    changedFrom before block fuel segments = none := by
  induction segments with
  | nil => exact absurd hmem List.not_mem_nil
  | cons first segments ih =>
    rw [changedFrom]
    rcases List.mem_cons.mp hmem with rfl | hrest
    · rw [changedIn_stuck hlength]
      rfl
    · rw [ih hrest]
      cases changedIn before first.1 first.2 block fuel 0 <;> rfl

end Blocks

/-! ## Reading the old image -/

section Reading

variable {before : Image} {segment held : Piece UInt8} {addr skip count : ℕ}

/-- What an image reads is in one of its segments. -/
theorem Image.held_of_get {bytes : List UInt8} (hget : before.get addr count = some bytes) {place : ℕ}
    {value : UInt8} (hvalue : Piece.at? (addr, bytes) place = some value) :
    ∃ held ∈ before.segments.entries, Piece.at? held place = some value := by
  obtain ⟨found, hfound, rfl⟩ := Option.map_eq_some_iff.mp hget
  have hfloor := SortedMap.floor_mem (Image.segmentFor_eq_some hfound).1
  have hstart : addr = found.1 + (addr - found.1) := by omega
  rw [hstart] at hvalue
  have hskip : found.1 + (addr - found.1) - found.1 = addr - found.1 := by omega
  rw [hskip] at hvalue
  exact ⟨found, hfloor.1, (Piece.at?_stretch.mp hvalue).2.2⟩

/-- A stretch of a piece that lies in a segment is read there if no segment starts in between. -/
theorem Image.get_of_inside (hheld : held ∈ before.segments.entries)
    (hinside : Piece.Inside segment held)
    (hfree : ∀ other ∈ before.segments.entries,
      ¬(held.1 < other.1 ∧ other.1 ≤ segment.1 + skip))
    (hfits : skip + count ≤ segment.2.length) :
    before.get (segment.1 + skip) count = some ((segment.2.drop skip).take count) := by
  have hfloor : before.segments.floor (segment.1 + skip) = some held := by
    rw [SortedMap.floor_eq_some]
    have hle := hinside.1
    refine ⟨hheld, by omega, ?_⟩
    intro other hother hstart
    exact not_lt.mp fun hlt ↦ hfree other hother ⟨hlt, hstart⟩
  have hroom : segment.1 + skip - held.1 + count ≤ held.2.length := by
    have hle := hinside.1
    have hend := hinside.2.1
    omega
  rw [Image.get, Image.segmentFor, hfloor, Option.bind_some, if_pos hroom, Option.map_some,
    hinside.stretch_eq hfits]

/-- Nothing is read where a segment starts in between. -/
theorem Image.get_of_hidden (hapart : Piece.Apart before.segments.entries)
    (hheld : held ∈ before.segments.entries) (hinside : Piece.Inside segment held)
    (hskip : skip < segment.2.length) (hcount : 0 < count) {other : Piece UInt8}
    (hother : other ∈ before.segments.entries)
    (hhides : held.1 < other.1 ∧ other.1 ≤ segment.1 + skip) :
    before.get (segment.1 + skip) count = none := by
  rw [Image.get, Option.map_eq_none_iff]
  by_contra hsome
  obtain ⟨found, hfound⟩ := Option.ne_none_iff_exists'.mp hsome
  have hfloor := SortedMap.floor_eq_some.mp (Image.segmentFor_eq_some hfound).1
  have hroom := (Image.segmentFor_eq_some hfound).2
  have hlater := hfloor.2.2 other hother hhides.2
  have hend := hinside.2.1
  have hsame : found = held := by
    apply hapart found hfloor.1 held hheld (segment.1 + skip)
    · rw [Piece.isSome_at?]
      omega
    · rw [Piece.isSome_at?]
      omega
  rw [hsame] at hlater
  omega

end Reading

/-! ## The writes -/

section Writes

variable {before after : Image} {block : ℕ} {blocks : List (Piece UInt8)}

/-- The blocks are those of the new image that the old one does not hold. -/
def AreChanged (before after : Image) (block : ℕ) (blocks : List (Piece UInt8)) : Prop :=
  ∀ written, written ∈ blocks ↔ ∃ segment ∈ after.segments.entries, ∃ k,
    k * block < segment.2.length ∧ written = cut segment block k ∧ Changed before written

/-- A block has the bytes of its segment. -/
theorem at?_cut {segment : Piece UInt8} {k addr : ℕ} {value : UInt8}
    (hvalue : Piece.at? (cut segment block k) addr = some value) :
    Piece.at? segment addr = some value :=
  (Piece.at?_stretch.mp hvalue).2.2

/-- Each byte of a segment is in a block. -/
theorem exists_cut (hblock : 1 ≤ block) {segment : Piece UInt8} {addr : ℕ} {value : UInt8}
    (hvalue : Piece.at? segment addr = some value) :
    ∃ k, k * block < segment.2.length ∧ Piece.at? (cut segment block k) addr = some value := by
  have hcovers : (Piece.at? segment addr).isSome := by
    rw [hvalue]
    rfl
  have hrange := Piece.isSome_at?.mp hcovers
  have hdiv := Nat.div_add_mod (addr - segment.1) block
  have hmod := Nat.mod_lt (addr - segment.1) hblock
  rw [Nat.mul_comm] at hdiv
  refine ⟨(addr - segment.1) / block, by omega, ?_⟩
  exact Piece.at?_stretch.mpr ⟨by omega, by omega, hvalue⟩

theorem AreChanged.sufficient (hmem : AreChanged before after block blocks) (hblock : 1 ≤ block)
    (hapart : Piece.Apart after.segments.entries) {memory : ℕ → UInt8}
    (hagrees : Piece.Agrees memory before.segments.entries) :
    Piece.Agrees (Piece.overwrite memory blocks) after.segments.entries := by
  apply hagrees.overwrite hapart
  · intro written hwritten
    obtain ⟨segment, hsegment, k, _, rfl, _⟩ := (hmem written).mp hwritten
    exact ⟨segment, hsegment, fun addr value ↦ at?_cut⟩
  · intro segment hsegment addr value hvalue
    obtain ⟨k, hk, hbyte⟩ := exists_cut hblock hvalue
    by_cases hchanged : Changed before (cut segment block k)
    · left
      exact ⟨cut segment block k, (hmem _).mpr ⟨segment, hsegment, k, hk, rfl, hchanged⟩, by
        rw [hbyte]
        rfl⟩
    · right
      exact Image.held_of_get (not_ne_iff.mp hchanged) hbyte

theorem AreChanged.within (hmem : AreChanged before after block blocks) {written : Piece UInt8}
    (hwritten : written ∈ blocks) {addr : ℕ} (hcovers : (written.at? addr).isSome) :
    ∃ segment ∈ after.segments.entries, (Piece.at? segment addr).isSome := by
  obtain ⟨segment, hsegment, k, _, rfl, _⟩ := (hmem written).mp hwritten
  obtain ⟨value, hvalue⟩ := Option.isSome_iff_exists.mp hcovers
  exact ⟨segment, hsegment, by rw [at?_cut hvalue]; rfl⟩

theorem AreChanged.small (hmem : AreChanged before after block blocks) {written : Piece UInt8}
    (hwritten : written ∈ blocks) : written.2.length ≤ block := by
  obtain ⟨segment, _, k, _, rfl, _⟩ := (hmem written).mp hwritten
  rw [cut_length]
  exact min_le_left _ _

/-- A block of a segment that the old image has is unchanged exactly if nothing hides it. -/
theorem changed_iff (hblock : 1 ≤ block) (hapart : Piece.Apart before.segments.entries)
    {segment held : Piece UInt8} (hheld : held ∈ before.segments.entries)
    (hinside : Piece.Inside segment held) {k : ℕ} (hk : k * block < segment.2.length) :
    ¬Changed before (cut segment block k) ↔ ∀ other ∈ before.segments.entries,
      ¬(held.1 < other.1 ∧ other.1 ≤ segment.1 + k * block) := by
  rw [Changed, not_ne_iff, cut_length]
  constructor
  · intro hread other hother hhides
    have hcount : 0 < min block (segment.2.length - k * block) := by omega
    have hnone := Image.get_of_hidden hapart hheld hinside hk hcount hother hhides
    exact absurd (hread.symm.trans hnone) (Option.some_ne_none _)
  · intro hfree
    have hread : before.get (segment.1 + k * block) (min block (segment.2.length - k * block)) =
        some ((segment.2.drop (k * block)).take (min block (segment.2.length - k * block))) :=
      Image.get_of_inside hheld hinside hfree (by omega)
    rw [cut, hread, ← List.length_drop, ← List.take_eq_take_min]

theorem AreChanged.minimal_iff (hmem : AreChanged before after block blocks) (hblock : 1 ≤ block)
    (hapart : Piece.Apart before.segments.entries) :
    ((∀ segment ∈ after.segments.entries, ∃ held ∈ before.segments.entries,
      Piece.Inside segment held) → blocks = []) ↔ NothingHidden before after block := by
  apply imp_congr_right
  intro hthere
  rw [List.eq_nil_iff_forall_not_mem]
  constructor
  · intro hnone segment hsegment held hheld hinside k hk
    apply (changed_iff hblock hapart hheld hinside hk).mp
    intro hchanged
    exact hnone _ ((hmem _).mpr ⟨segment, hsegment, k, hk, rfl, hchanged⟩)
  · intro hfree written hwritten
    obtain ⟨segment, hsegment, k, hk, rfl, hchanged⟩ := (hmem written).mp hwritten
    obtain ⟨held, hheld, hinside⟩ := hthere segment hsegment
    exact (changed_iff hblock hapart hheld hinside hk).mpr (hfree segment hsegment held hheld hinside k hk)
      hchanged

end Writes

/-! ## Performing them -/

section Perform

variable {σ ε : Type} {session : RadioSession σ ε} {cancelled : ℕ → Bool}

/-- What the loop does from the write `polls` on. -/
theorem writeLoop_performs (session : RadioSession σ ε) (cancelled : ℕ → Bool)
    (total done polls : ℕ) (state : σ) (blocks : List (Piece UInt8)) :
    let written := writeLoop session cancelled total polls done state blocks
    written.asked <+: blocks ∧
      (∀ i, cancelled (polls + i) = true → written.asked.length ≤ i) ∧
      ((∀ error, written.result ≠ .error (.session error)) →
        ((∀ i < blocks.length, cancelled (polls + i) = false) →
          written.asked = blocks ∧ written.result = .ok (done + totalBytes blocks)) ∧
        ∀ i < blocks.length, cancelled (polls + i) = true → (∀ j < i, cancelled (polls + j) = false) →
          written.asked = blocks.take i ∧ written.result = .error .cancelled) := by
  induction blocks generalizing polls done state with
  | nil =>
    refine ⟨List.prefix_rfl, fun _ _ ↦ Nat.zero_le _, fun _ ↦ ⟨fun _ ↦ ⟨rfl, rfl⟩, ?_⟩⟩
    intro i hi
    exact absurd hi (Nat.not_lt_zero i)
  | cons block blocks ih =>
    obtain ⟨addr, data⟩ := block
    intro written
    have hfirst (i : ℕ) (h : ∀ j < i + 1, cancelled (polls + j) = false) : cancelled polls = false :=
      h 0 (Nat.succ_pos i)
    by_cases hcancelled : cancelled polls = true
    · have hwritten : written = ⟨state, [], [], .error .cancelled⟩ := if_pos hcancelled
      rw [hwritten]
      refine ⟨List.nil_prefix, fun _ _ ↦ Nat.zero_le _, fun _ ↦ ⟨?_, ?_⟩⟩
      · intro hnone
        exact absurd hcancelled (by rw [hfirst blocks.length hnone]; exact Bool.false_ne_true)
      · intro i _ _ hbefore
        cases i with
        | zero => exact ⟨rfl, rfl⟩
        | succ i => exact absurd hcancelled (by rw [hfirst i hbefore]; exact Bool.false_ne_true)
    · have hzero (i : ℕ) (hi : cancelled (polls + i) = true) : i ≠ 0 := by
        rintro rfl
        exact hcancelled hi
      rcases hanswer : session.write state addr data with ⟨next, _ | error⟩
      · obtain ⟨hbegins, hstops, hends⟩ := ih (done + data.length) (polls + 1) next
        have hwritten : written =
            { writeLoop session cancelled total (polls + 1) (done + data.length) next blocks with
              asked := (addr, data) ::
                (writeLoop session cancelled total (polls + 1) (done + data.length) next blocks).asked
              reports := ⟨"writing", done + data.length, total⟩ ::
                (writeLoop session cancelled total (polls + 1) (done + data.length) next
                  blocks).reports } := by
          show writeLoop _ _ _ _ _ _ _ = _
          rw [writeLoop, if_neg hcancelled, hanswer]
        rw [hwritten]
        refine ⟨List.cons_prefix_cons.mpr ⟨rfl, hbegins⟩, ?_, fun hfails ↦ ⟨?_, ?_⟩⟩
        · intro i hi
          obtain ⟨j, rfl⟩ := Nat.exists_eq_succ_of_ne_zero (hzero i hi)
          rw [Nat.succ_eq_add_one, Nat.add_comm j, ← Nat.add_assoc] at hi
          exact Nat.succ_le_succ (hstops j hi)
        · intro hnone
          have hrest := (hends hfails).1 fun i hi ↦ by
            rw [Nat.add_assoc, Nat.add_comm 1]
            exact hnone (i + 1) (Nat.succ_lt_succ hi)
          refine ⟨congrArg _ hrest.1, hrest.2.trans ?_⟩
          rw [totalBytes, totalBytes, List.map_cons, List.sum_cons, Nat.add_assoc]
        · intro i hi hstop hbefore
          obtain ⟨j, rfl⟩ := Nat.exists_eq_succ_of_ne_zero (hzero i hstop)
          rw [Nat.succ_eq_add_one, Nat.add_comm j, ← Nat.add_assoc] at hstop
          have hrest := (hends hfails).2 j (Nat.lt_of_succ_lt_succ hi) hstop fun l hl ↦ by
            rw [Nat.add_assoc, Nat.add_comm 1]
            exact hbefore (l + 1) (Nat.succ_lt_succ hl)
          exact ⟨congrArg _ hrest.1, hrest.2⟩
      · have hwritten : written = ⟨next, [(addr, data)], [], .error (.session error)⟩ := by
          show writeLoop _ _ _ _ _ _ _ = _
          rw [writeLoop, if_neg hcancelled, hanswer]
        rw [hwritten]
        refine ⟨List.cons_prefix_cons.mpr ⟨rfl, List.nil_prefix⟩, ?_, ?_⟩
        · intro i hi
          exact Nat.one_le_iff_ne_zero.mpr (hzero i hi)
        · intro hfails
          exact absurd rfl (hfails error)

theorem writeLoop_spec (state : σ) (blocks : List (Piece UInt8)) :
    Performs session cancelled blocks
      (writeLoop session cancelled (totalBytes blocks) 0 0 state blocks) := by
  obtain ⟨hbegins, hstops, hends⟩ := writeLoop_performs session cancelled (totalBytes blocks) 0 0
    state blocks
  simp only [Nat.zero_add] at hstops hends
  exact ⟨hbegins, hstops, fun hfails ↦ (hends hfails).1, fun hfails ↦ (hends hfails).2⟩

end Perform

section Condition

variable {before after : Image} {blockSize : ℕ}

theorem DifferentialWrite.short (hwrite : DifferentialWrite before after blockSize)
    (hafter : after.Disjoint) :
    ∀ segment ∈ after.segments.entries, segment.2.length < addressSpace := by
  obtain ⟨fuel, blocks, hblocks, _⟩ := hwrite
  intro segment hsegment
  have hbound := hafter.bounded segment hsegment
  apply lt_of_le_of_ne (by omega)
  intro hwhole
  rw [changedBlocks, changedFrom_stuck hsegment hwhole] at hblocks
  exact absurd hblocks (Option.some_ne_none blocks).symm

theorem DifferentialWrite.nothingHidden (hwrite : DifferentialWrite before after blockSize)
    (hbefore : before.Disjoint) (hafter : after.Disjoint) :
    NothingHidden before after (max blockSize 1) := by
  have hblock : 1 ≤ max blockSize 1 := le_max_right blockSize 1
  obtain ⟨cuts, hcuts, hmem⟩ := changedFrom_spec before hblock (hwrite.short hafter)
  obtain ⟨fuel, blocks, hblocks, hdifferential, _⟩ := hwrite
  have hsame : blocks = cuts := by
    have hmore := changedFrom_mono hblocks addressSpace
    rw [Nat.add_comm, changedFrom_mono hcuts fuel] at hmore
    exact (Option.some.inj hmore).symm
  have hchanged : AreChanged before after (max blockSize 1) blocks := hsame ▸ hmem
  exact (hchanged.minimal_iff hblock hbefore.apart).mp hdifferential.minimal

theorem differentialWrite_of (hbefore : before.Disjoint) (hafter : after.Disjoint)
    (hshort : ∀ segment ∈ after.segments.entries, segment.2.length < addressSpace)
    (hfree : NothingHidden before after (max blockSize 1)) :
    DifferentialWrite before after blockSize := by
  have hblock : 1 ≤ max blockSize 1 := le_max_right blockSize 1
  obtain ⟨blocks, hblocks, hmem⟩ := changedFrom_spec before hblock hshort
  have hchanged : AreChanged before after (max blockSize 1) blocks := hmem
  refine ⟨addressSpace, blocks, hblocks, ⟨?_, ?_, ?_, ?_⟩, ?_⟩
  · exact fun memory hagrees ↦ hchanged.sufficient hblock hafter.apart hagrees
  · exact fun written hwritten addr ↦ hchanged.within hwritten
  · exact fun written hwritten ↦ hchanged.small hwritten
  · exact (hchanged.minimal_iff hblock hbefore.apart).mpr hfree
  · rintro σ ε session cancelled state rfl
    refine ⟨_, ?_, writeLoop_spec state blocks⟩
    rw [Transfer.write, changedBlocks, hblocks]
    rfl

end Condition

/-- The differential write does what is promised if and only if no segment of the new image takes the
whole address space, and no segment of the old one hides bytes that are there already. -/
theorem differentialWrite_iff {before after : Image} (hbefore : before.Disjoint) (hafter : after.Disjoint)
    (blockSize : ℕ) :
    DifferentialWrite before after blockSize ↔
      (∀ segment ∈ after.segments.entries, segment.2.length < addressSpace) ∧
        NothingHidden before after (max blockSize 1) :=
  ⟨fun hwrite ↦ ⟨hwrite.short hafter, hwrite.nothingHidden hbefore hafter⟩,
    fun h ↦ differentialWrite_of hbefore hafter h.1 h.2⟩

/-- Two bytes at the start of the memory. -/
def twoBytes : Image := ⟨⟨[(0, [1, 2])], by decide⟩⟩

/-- The same with an empty segment at the second byte. -/
def twoBytesHidden : Image := ⟨⟨[(0, [1, 2]), (1, [])], by decide⟩⟩

theorem twoBytes_disjoint : twoBytes.Disjoint := by
  constructor
  · intro p hp q hq addr _ _
    rw [List.eq_of_mem_singleton hp, List.eq_of_mem_singleton hq]
  · decide

theorem twoBytesHidden_disjoint : twoBytesHidden.Disjoint := by
  have hsolid (piece : Piece UInt8) (hpiece : piece ∈ twoBytesHidden.segments.entries) (addr : ℕ)
      (hcovers : (piece.at? addr).isSome) : piece = (0, [1, 2]) := by
    rcases List.mem_pair.mp hpiece with rfl | rfl
    · rfl
    · rw [Piece.at?_eq_none_of_nil rfl] at hcovers
      exact absurd hcovers Bool.false_ne_true
  constructor
  · intro p hp q hq addr hinp hinq
    rw [hsolid p hp addr hinp, hsolid q hq addr hinq]
  · decide

theorem twoBytes_inside : Piece.Inside ((0, [1, 2]) : Piece UInt8) (0, [1, 2]) :=
  ⟨le_rfl, le_rfl, fun _ _ ↦ id⟩

/-- Bytes that are there already in an image of one segment. -/
theorem differentialWrite_twoBytes : DifferentialWrite twoBytes twoBytes 1 := by
  apply (differentialWrite_iff twoBytes_disjoint twoBytes_disjoint 1).mpr
  constructor
  · decide
  · intro _ segment hsegment held hheld _ k hk other hother
    rw [List.eq_of_mem_singleton hheld, List.eq_of_mem_singleton hother]
    exact fun h ↦ absurd h.1 (lt_irrefl 0)

/-- The second byte is written again as an empty segment starts there. -/
theorem differentialWrite_hidden :
    ¬∀ before after : Image, before.Disjoint → after.Disjoint → ∀ blockSize,
      DifferentialWrite before after blockSize := by
  intro hall
  have hwrite := hall twoBytesHidden twoBytes twoBytesHidden_disjoint twoBytes_disjoint 1
  have hfree := hwrite.nothingHidden twoBytesHidden_disjoint twoBytes_disjoint
  have hthere : ∀ segment ∈ twoBytes.segments.entries, ∃ held ∈ twoBytesHidden.segments.entries,
      Piece.Inside segment held := by
    intro segment hsegment
    rw [List.eq_of_mem_singleton hsegment]
    exact ⟨(0, [1, 2]), by decide, twoBytes_inside⟩
  exact hfree hthere (0, [1, 2]) (by decide) (0, [1, 2]) (by decide) twoBytes_inside 1 (by decide)
    (1, []) (by decide) (by decide)

end Sdrmm.Cps
