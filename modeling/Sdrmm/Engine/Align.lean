import Sdrmm.Engine.Tap

/-!
# Alignment of the lanes of an array

The aligner of `array/align.rs` as a program that shares the queues of its lanes with their writers.  Loops
that run until a queue is empty run for as long as the script says and are then cut off, which is where a
reader stands that has not come out of its loop.
-/

namespace Sdrmm.Align

def maxLanes : ℕ := 16
def alignRounds : ℕ := 4

structure Aligner where
  offsets : ℕ → ℤ := fun _ ↦ 0
  index : ℕ := 0
  realigns : ℕ := 0
  skipped : ℕ := 0
  realigning : Bool := false
  delivered : Bool := false
  moved : Bool := false

namespace Aligner

def setOffsets (aligner : Aligner) (offsets : List ℤ) : Aligner :=
  let given := offsets.take maxLanes
  { aligner with
    moved := aligner.moved || (given.mapIdx fun lane offset ↦ aligner.offsets lane != offset).any id
    offsets := fun lane ↦ given.getD lane (aligner.offsets lane) }

def counts (aligner : Aligner) : Bool := aligner.delivered && !aligner.moved

end Aligner

/-- A block that was delivered: the samples of each lane. -/
structure Block (S : Type) where
  index : ℕ
  count : ℕ
  offsets : ℕ → ℤ
  raw : ℕ → List S

/-- The lanes, the aligner with the notes of its caller, and the blocks that it has delivered, the last one
first. -/
structure Rig (S : Type) where
  lanes : ℕ → Lane S
  aligner : Aligner := {}
  notes : AlignNotes := {}
  blocks : List (Block S) := []

namespace Rig

variable {S : Type}

def setLane (rig : Rig S) (number : ℕ) (lane : Lane S) : Rig S :=
  { rig with lanes := Function.update rig.lanes number lane }

/-- The position that the lane that is farthest ahead has come to. -/
def common (rig : Rig S) (lanes : ℕ) : Option ℕ :=
  let positions := (List.range lanes).map fun number ↦
    (rig.lanes number).feed.readIndex.map fun read ↦ (read : ℤ) - rig.aligner.offsets number
  if positions.all Option.isSome then
    ((positions.filterMap id).max?).bind fun greatest ↦
      if max greatest 0 < 2 ^ 64 then some (max greatest 0).toNat else none
  else none

/-- A lane goes on to the common position; the result tells whether it got there, and none is a lane that
has no such position. -/
def lineUp (common number : ℕ) (rig : Rig S) : Option Bool × Rig S :=
  let offset := rig.aligner.offsets number
  let target := (common : ℤ) + offset
  if ¬(0 ≤ target ∧ target < 2 ^ 64) then
    (none, { rig with
      aligner := { rig.aligner with offsets := Function.update rig.aligner.offsets number 0 }
      notes := rig.notes.push (.uncertain (min number 255) common unknownError .lane .unaligned) })
  else
    let lane := rig.lanes number
    match lane.feed.readIndex with
    | none => (none, rig)
    | some read =>
        if target.toNat ≤ read then (some true, rig)
        else
          let counts := rig.aligner.counts
          let need := target.toNat - read
          let (skipped, lane) := lane.skip (min need lane.feed.skippable)
          let rig := rig.setLane number lane
          let rig :=
            if rig.aligner.realigning then rig
            else
              { rig with
                aligner := { rig.aligner with
                  realigning := true
                  realigns := rig.aligner.realigns + counts.toNat }
                notes := rig.notes.push (.realigned common) }
          (some (decide (need ≤ skipped)),
            if counts then
              { rig with
                aligner := { rig.aligner with skipped := rig.aligner.skipped + skipped } }
            else rig)

def count (rig : Rig S) (lanes : ℕ) : ℕ :=
  min (((List.range lanes).map fun number ↦ (rig.lanes number).feed.ready).min?.getD 0) alignBlock

/-- The delivered block is noted by the caller. -/
def record (rig : Rig S) (count : ℕ) : Rig S :=
  { rig with
    blocks := {
      index := rig.aligner.index
      count := count
      offsets := rig.aligner.offsets
      raw := fun number ↦ (rig.lanes number).raw } :: rig.blocks }

end Rig

open Rig

variable {S : Type}

/-- One access to the queues of a lane. -/
def onLane {α : Type} (number : ℕ) (f : Lane S → α × Lane S) : Prog (Rig S) α :=
  .access fun rig ↦
    ((f (rig.lanes number)).1, rig.setLane number (f (rig.lanes number)).2)

/-! ## The writer -/

/-- A stamp, where the events have room to spare. -/
def pushStamp (number index hostNs : ℕ) : Prog (Rig S) Unit := do
  let roomy ← onLane number fun lane ↦ (decide (stampReserve < tapEventSlots - lane.events.length), lane)
  if roomy then onLane number fun lane ↦ ((), (lane.pushEvent (.stamp index hostNs)).2) else pure ()

/-- The samples of a block that there is room for. -/
def pushBlock (number : ℕ) (block : List S) (index : ℕ) : Prog (Rig S) Unit := do
  let taken ← onLane number fun lane ↦ (min lane.slots block.length, lane)
  (if 0 < taken then onLane number fun lane ↦ ((), lane.pushSamples (block.take taken)) else pure ())
  onLane number fun lane ↦ ((), lane.leave (index + block.length) (block.length - taken))

def write (number : ℕ) (block : List S) (index hostNs : ℕ) : Prog (Rig S) Unit := do
  let full ← onLane number (Lane.enter index)
  let flushed ← (if full then pure false else onLane number Lane.flush)
  if flushed then do
    pushStamp number index hostNs
    pushBlock number block index
  else onLane number fun lane ↦ ((), lane.leave (index + block.length) block.length)

def event (number : ℕ) (event : LaneEvent) : Prog (Rig S) Unit := do
  onLane number fun lane ↦ ((), lane.meet event.position)
  let flushed ← onLane number Lane.flush
  let pushed ← (if flushed then onLane number fun lane ↦ lane.pushEvent (.lane event) else pure false)
  if pushed then pure () else onLane number fun lane ↦ ((), lane.lose)

/-- A call of a lane's writer. -/
inductive WriterCall (S : Type)
  | write (block : List S) (index hostNs : ℕ)
  | event (event : LaneEvent)

def writer (number : ℕ) (calls : List (WriterCall S)) : Prog (Rig S) Unit :=
  .each calls fun
    | .write block index hostNs => write number block index hostNs
    | .event event => Align.event number event

/-! ## The reader -/

def settleLoop (number : ℕ) : ℕ → Prog (Rig S) Unit
  | 0 => .halt
  | fuel + 1 => do
      let more ← Prog.access fun rig : Rig S ↦
        let (more, lane, notes) :=
          (rig.lanes number).settle rig.notes number (rig.aligner.offsets number)
        (more, { rig.setLane number lane with notes := notes })
      if more then settleLoop number fuel else pure ()

def settleLane (fuel number : ℕ) : Prog (Rig S) Unit := do
  onLane number fun lane ↦ ((), lane.look)
  settleLoop number fuel

def settle (lanes fuel : ℕ) : Prog (Rig S) Unit := .each (List.range lanes) (settleLane fuel)

def lineUpAll (common : ℕ) : List ℕ → Bool → Prog (Rig S) (Option Bool)
  | [], aligned => pure (some aligned)
  | number :: rest, aligned => do
      match ← Prog.access (lineUp common number) with
      | none => pure none
      | some reached => lineUpAll common rest (aligned && reached)

/-- The common position that all lanes were brought to, within `rounds`. -/
def alignAll (lanes fuel : ℕ) : ℕ → Prog (Rig S) (Option ℕ)
  | 0 => pure none
  | rounds + 1 => do
      settle lanes fuel
      match ← Prog.access fun rig : Rig S ↦ (rig.common lanes, rig) with
      | none => pure none
      | some target =>
          match ← lineUpAll target (List.range lanes) true with
          | none => pure none
          | some true => pure (some target)
          | some false => alignAll lanes fuel rounds

def takeAll (lanes common count : ℕ) : Prog (Rig S) (Option ℕ) := do
  Prog.each (List.range lanes) fun number ↦ onLane number fun lane ↦ ((), lane.takeInto count)
  Prog.access fun rig : Rig S ↦
    ((), { rig with aligner := { rig.aligner with index := common, delivered := true, moved := false } })
  pure (some count)

def next (lanes fuel : ℕ) : Prog (Rig S) (Option ℕ) :=
  if lanes = 0 then pure none
  else do
    match ← alignAll lanes fuel alignRounds with
    | none => pure none
    | some common =>
        let count ← Prog.access fun rig : Rig S ↦
          (rig.count lanes, { rig with aligner := { rig.aligner with realigning := false } })
        if count = 0 then pure none else takeAll lanes common count

/-- A call of the aligner's owner. -/
inductive ReaderCall
  | setOffsets (offsets : List ℤ)
  | clearNotes
  | settle (fuel : ℕ)
  | next (fuel : ℕ)

def reader (lanes : ℕ) (calls : List ReaderCall) : Prog (Rig S) Unit :=
  .each calls fun
    | .setOffsets offsets =>
        Prog.access fun rig ↦ ((), { rig with aligner := rig.aligner.setOffsets offsets })
    | .clearNotes => Prog.access fun rig ↦ ((), { rig with notes := {} })
    | .settle fuel => settle lanes fuel
    | .next fuel => do
        match ← next lanes fuel with
        | none => pure ()
        | some count => Prog.access fun rig ↦ ((), rig.record count)

/-- The writers of the lanes, and the reader as `none`. -/
def programs (lanes : ℕ) (calls : ℕ → List (WriterCall S)) (reads : List ReaderCall) :
    Option ℕ → Prog (Rig S) Unit
  | some number => writer number (calls number)
  | none => reader lanes reads

end Sdrmm.Align
