import Mathlib.Tactic

/-!
# The capture ring

The single-producer single-consumer ring of `engine/src/capture_ring.rs`: samples travel in one
queue, the capture index of each run of them in another, and both sides keep the counters of
`metrics.rs` and the advertised room of `SinkRoom`.  The two sides run concurrently, so each is
cut into the steps between its accesses to what they share; an event is a call, or one such step
of either side.  The queues are FIFO lists of bounded length whose writes become visible at once.

Counters are integers, and every clock reading is a value the events supply.
-/

namespace Sdrmm.CaptureRing

def spanCapacity : ℕ := 4096

structure Span where
  start : ℕ
  len : ℕ
  queued : ℕ
  deriving DecidableEq, Repr

/-- The span left when its first `len` samples are consumed. -/
def Span.advance (span : Span) (len : ℕ) : Span :=
  { span with start := span.start + len, len := span.len - len }

/-- Where a call of `push` stands. -/
inductive Producing (α : Type)
  | idle
  | called (samples : List α) (start : ℕ)
  | counted (samples : List α) (start : ℕ)
  | refusing (samples : List α)
  | sized (samples : List α) (start len : ℕ)
  | spanReserved (samples : List α) (start len : ℕ)
  | reserved (samples : List α) (start len : ℕ)
  | booked (samples : List α) (start len : ℕ)
  | taken (samples : List α) (start len : ℕ)
  | cut (samples : List α) (start len : ℕ)
  | filled (start len : ℕ)
  deriving DecidableEq, Repr

/-- Where a call of `consume_fresh_at` stands. -/
inductive Consuming
  | idle
  | holding (span : Span) (limit maxAge now : ℕ)
  | reading (span : Span) (len maxAge now : ℕ)
  | judged (span : Span) (len : ℕ) (fresh : Bool)
  | counted (span : Span) (len : ℕ) (fresh : Bool)
  | delivered (span : Span) (len : ℕ)
  | popped (span : Span) (len : ℕ)
  | committed (span : Span) (len : ℕ)
  deriving DecidableEq, Repr

structure Freshness where
  recovering : Bool
  lastStale : Option ℕ
  freshSinceStale : Bool
  deriving DecidableEq, Repr

/-- The staleness rule: whether the span is still worth delivering, and what is remembered. -/
def Freshness.judge (state : Freshness) (queued maxAge now : ℕ) : Bool × Freshness :=
  let age := now - queued
  let state := if maxAge < age then
      { recovering := state.recovering ||
          (state.freshSinceStale && state.lastStale.any fun last ↦ decide (now - last ≤ maxAge))
        lastStale := some now
        freshSinceStale := false }
    else state
  let fresh := decide (age ≤ if state.recovering then maxAge / 2 else maxAge)
  (fresh, if fresh then { state with recovering := false, freshSinceStale := true } else state)

structure State (α : Type) where
  samples : List α
  spans : List Span
  queued : ℤ
  oldest : ℕ
  dropped : ℕ
  room : ℤ
  next : Option ℕ
  producing : Producing α
  pending : Option Span
  freshness : Freshness
  consuming : Consuming
  received : List (α × ℕ)
  deriving DecidableEq, Repr

variable {α : Type}

/-- `capture_ring(capacity)`. -/
def captureRing (capacity : ℕ) : State α where
  samples := []
  spans := []
  queued := 0
  oldest := 0
  dropped := 0
  room := capacity
  next := none
  producing := .idle
  pending := none
  freshness := ⟨false, none, false⟩
  consuming := .idle
  received := []

/-- `SinkRoom::free`. -/
def State.free (s : State α) : ℤ := max s.room 0

def State.slots (capacity : ℕ) (s : State α) : ℕ := capacity - s.samples.length

/-- One step of `push`, up to its next access to shared state. -/
def produce (capacity now : ℕ) (s : State α) : State α :=
  match s.producing with
  | .idle => s
  | .called samples start =>
      { s with
        dropped := s.dropped + s.next.elim 0 (start - ·)
        next := some (start + samples.length)
        producing := .counted samples start }
  | .counted samples start =>
      if min samples.length (s.slots capacity) = 0 then { s with producing := .refusing samples }
      else { s with producing := .sized samples start (min samples.length (s.slots capacity)) }
  | .refusing samples => { s with dropped := s.dropped + samples.length, producing := .idle }
  | .sized samples start len =>
      if s.spans.length < min capacity spanCapacity
      then { s with producing := .spanReserved samples start len }
      else { s with producing := .refusing samples }
  | .spanReserved samples start len =>
      if len ≤ s.slots capacity then { s with producing := .reserved samples start len }
      else { s with producing := .refusing samples }
  | .reserved samples start len =>
      { s with
        queued := s.queued + len
        oldest := if s.queued = 0 then now else s.oldest
        producing := .booked samples start len }
  | .booked samples start len =>
      { s with room := s.room - len, producing := .taken samples start len }
  | .taken samples start len =>
      { s with dropped := s.dropped + (samples.length - len), producing := .cut samples start len }
  | .cut samples start len =>
      { s with samples := s.samples ++ samples.take len, producing := .filled start len }
  | .filled start len =>
      { s with spans := s.spans ++ [⟨start, len, now⟩], producing := .idle }

/-- One step of `consume_fresh_at`.  The chunk comes in two slices, cut where the ring wraps. -/
def consume (wrap : ℕ) (s : State α) : State α :=
  match s.consuming with
  | .idle => s
  | .holding span limit maxAge now =>
      if min span.len limit ≤ s.samples.length
      then { s with consuming := .reading span (min span.len limit) maxAge now }
      else { s with pending := some span, consuming := .idle }
  | .reading span len maxAge now =>
      { s with
        oldest := span.queued
        freshness := (s.freshness.judge span.queued maxAge now).2
        consuming := .judged span len (s.freshness.judge span.queued maxAge now).1 }
  | .judged span len fresh =>
      { s with
        dropped := s.dropped + if fresh then 0 else len
        consuming := .counted span len fresh }
  | .counted span len fresh =>
      let a := (s.samples.take len).take wrap
      let b := (s.samples.take len).drop wrap
      { s with
        received := s.received ++
          if fresh then a.zipIdx span.start ++ b.zipIdx (span.start + a.length) else []
        consuming := .delivered span len }
  | .delivered span len => { s with queued := s.queued - len, consuming := .popped span len }
  | .popped span len =>
      { s with samples := s.samples.drop len, consuming := .committed span len }
  | .committed span len =>
      { s with
        room := s.room + len
        pending := if 0 < (span.advance len).len then some (span.advance len) else none
        consuming := .idle }

/-- The call of `consume_fresh_at` takes up the span it left or the oldest one queued. -/
def take (limit maxAge now : ℕ) (s : State α) : State α :=
  match s.pending, s.spans with
  | some span, _ => { s with pending := none, consuming := .holding span limit maxAge now }
  | none, span :: spans => { s with spans := spans, consuming := .holding span limit maxAge now }
  | none, [] => s

inductive Event (α : Type)
  | push (samples : List α) (start : ℕ)
  | produce (now : ℕ)
  | take (limit maxAge now : ℕ)
  | consume (wrap : ℕ)

/-- A side is called only when its last call has returned, and blocks are pushed in capture
order. -/
def step (capacity : ℕ) (s : State α) : Event α → Option (State α)
  | .push samples start =>
      match s.producing with
      | .idle => if s.next.all (· ≤ start) then
          some { s with producing := .called samples start } else none
      | _ => none
  | .produce now => some (produce capacity now s)
  | .take limit maxAge now =>
      match s.consuming with
      | .idle => some (take limit maxAge now s)
      | _ => none
  | .consume wrap => some (consume wrap s)

def run (capacity : ℕ) (events : List (Event α)) : Option (State α) :=
  events.foldlM (step capacity) (captureRing capacity)

/-- The blocks pushed, in order. -/
def blocks (events : List (Event α)) : List (List α × ℕ) :=
  events.filterMap fun
    | .push samples start => some (samples, start)
    | _ => none

/-- Every sample pushed, with its capture index. -/
def pushed (blocks : List (List α × ℕ)) : List (α × ℕ) :=
  blocks.flatMap fun block ↦ block.1.zipIdx block.2

def lastEnd (blocks : List (List α × ℕ)) : Option ℕ :=
  blocks.getLast?.map fun block ↦ block.2 + block.1.length

/-- The last end index less the first start index. -/
def extent (blocks : List (List α × ℕ)) : ℤ :=
  match blocks.head?, lastEnd blocks with
  | some first, some last => last - first.2
  | _, _ => 0

/-- Neither side is inside a call. -/
def State.Quiescent (s : State α) : Prop := s.producing = .idle ∧ s.consuming = .idle

/-! ## The books -/

namespace Producing

/-- Samples of the block in hand that are neither queued nor counted as dropped yet. -/
def owed : Producing α → ℕ
  | .idle | .called _ _ | .filled _ _ => 0
  | .counted samples _ | .refusing samples | .sized samples _ _ | .spanReserved samples _ _
  | .reserved samples _ _ | .booked samples _ _ | .taken samples _ _ => samples.length
  | .cut _ _ len => len

/-- Samples counted as queued before they are. -/
def ahead : Producing α → ℕ
  | .booked _ _ len | .taken _ _ len | .cut _ _ len => len
  | _ => 0

/-- Samples whose room is taken before they are queued. -/
def reservedRoom : Producing α → ℕ
  | .taken _ _ len | .cut _ _ len => len
  | _ => 0

/-- The accepted length never exceeds the block, and once reserved it fits the ring. -/
def Fits (capacity used : ℕ) : Producing α → Prop
  | .sized samples _ len | .spanReserved samples _ len => len ≤ samples.length
  | .reserved samples _ len | .booked samples _ len | .taken samples _ len | .cut samples _ len =>
      len ≤ samples.length ∧ used + len ≤ capacity
  | _ => True

/-- The block whose gap is not counted yet. -/
def uncounted : Producing α → List (List α × ℕ)
  | .called samples start => [(samples, start)]
  | _ => []

end Producing

namespace Consuming

/-- Samples still queued that are already delivered or counted as dropped. -/
def settled : Consuming → ℕ
  | .counted _ len fresh => if fresh then 0 else len
  | .delivered _ len | .popped _ len => len
  | _ => 0

/-- Samples still queued that are no longer counted as such. -/
def behind : Consuming → ℕ
  | .popped _ len => len
  | _ => 0

/-- Samples no longer queued whose room is not given back yet. -/
def unfreed : Consuming → ℕ
  | .committed _ len => len
  | _ => 0

/-- The samples being read are there. -/
def Reads (available : ℕ) : Consuming → Prop
  | .reading span len _ _ | .judged span len _ | .counted span len _ | .delivered span len
  | .popped span len => len ≤ span.len ∧ len ≤ available
  | .committed span len => len ≤ span.len
  | _ => True

end Consuming

/-- The counters agree with the queue, up to what each side has half done. -/
structure Books (capacity : ℕ) (blocks : List (List α × ℕ)) (s : State α) : Prop where
  ledger : ∃ past, blocks = past ++ s.producing.uncounted ∧ s.next = lastEnd past ∧
    (s.received.length + s.dropped + s.samples.length + s.producing.owed : ℤ) =
      extent past + s.consuming.settled
  gap : ∀ samples start, s.producing = .called samples start → ∀ next ∈ s.next, next ≤ start
  queued : s.queued = s.samples.length + s.producing.ahead - s.consuming.behind
  room : s.room = capacity - s.samples.length - s.producing.reservedRoom - s.consuming.unfreed
  fits : s.producing.Fits capacity s.samples.length
  bounded : s.samples.length ≤ capacity
  reads : s.consuming.Reads s.samples.length

theorem lastEnd_snoc (past : List (List α × ℕ)) (samples : List α) (start : ℕ) :
    lastEnd (past ++ [(samples, start)]) = some (start + samples.length) := by
  simp [lastEnd]

theorem extent_snoc (past : List (List α × ℕ)) (samples : List α) (start : ℕ)
    (hgap : ∀ next ∈ lastEnd past, next ≤ start) :
    extent (past ++ [(samples, start)]) =
      extent past + ((lastEnd past).elim 0 (start - ·) : ℕ) + samples.length := by
  cases past with
  | nil => simp [extent, lastEnd]
  | cons first past =>
    obtain ⟨last, hlast⟩ : ∃ last, lastEnd (first :: past) = some last := by
      simp [lastEnd, List.getLast?_cons]
    have hle := hgap last hlast
    unfold extent
    rw [lastEnd_snoc, hlast]
    simp only [List.cons_append, List.head?_cons, Option.elim_some]
    push_cast [Nat.cast_sub hle]
    ring

theorem Consuming.Reads.mono {consuming : Consuming} {available more : ℕ}
    (hreads : consuming.Reads available) (hle : available ≤ more) : consuming.Reads more := by
  cases consuming with
  | idle | holding | committed => exact hreads
  | reading | judged | counted | delivered | popped => exact ⟨hreads.1, hreads.2.trans hle⟩

theorem Producing.Fits.anti {producing : Producing α} {capacity used less : ℕ}
    (hfits : producing.Fits capacity used) (hle : less ≤ used) : producing.Fits capacity less := by
  cases producing with
  | idle | called | counted | refusing | sized | spanReserved | filled => exact hfits
  | reserved | booked | taken | cut => exact ⟨hfits.1, by have := hfits.2; omega⟩

attribute [simp] Producing.owed Producing.ahead Producing.reservedRoom Producing.Fits
  Producing.uncounted Consuming.settled Consuming.behind Consuming.unfreed Consuming.Reads

theorem Books.produce {capacity : ℕ} {blocks : List (List α × ℕ)} {s : State α}
    (hbooks : Books capacity blocks s) (now : ℕ) :
    Books capacity blocks (produce capacity now s) := by
  obtain ⟨queue, spans, queued, oldest, dropped, room, next, producing, pending, freshness,
    consuming, received⟩ := s
  obtain ⟨⟨past, hpast, hnext, hledger⟩, hgap, hqueued, hroom, hfits, hbounded, hreads⟩ := hbooks
  dsimp only at hpast hnext hledger hgap hqueued hroom hfits hbounded hreads
  cases producing with
  | idle =>
    exact ⟨⟨past, hpast, hnext, hledger⟩, hgap, hqueued, hroom, hfits, hbounded, hreads⟩
  | called samples start =>
    -- the gap before the block and the block itself enter the ledger here
    have hle : ∀ n ∈ lastEnd past, n ≤ start := hnext ▸ hgap samples start rfl
    refine ⟨⟨past ++ [(samples, start)], by rw [hpast]; simp [CaptureRing.produce],
      (lastEnd_snoc ..).symm, ?_⟩,
      by simp [CaptureRing.produce], hqueued, hroom, trivial, hbounded, hreads⟩
    rw [extent_snoc past samples start hle, ← hnext]
    simp only [CaptureRing.produce, Producing.owed] at hledger ⊢
    push_cast at hledger ⊢
    linarith
  | counted samples start =>
    simp only [CaptureRing.produce]
    split
    · exact ⟨⟨past, hpast, hnext, hledger⟩, by simp, hqueued, hroom, trivial, hbounded, hreads⟩
    · exact ⟨⟨past, hpast, hnext, hledger⟩, by simp, hqueued, hroom, Nat.min_le_left .., hbounded,
        hreads⟩
  | refusing samples =>
    refine ⟨⟨past, hpast, hnext, ?_⟩, by simp [CaptureRing.produce], hqueued, hroom, trivial,
      hbounded, hreads⟩
    simp only [CaptureRing.produce, Producing.owed] at hledger ⊢
    push_cast at hledger ⊢
    linarith
  | sized samples start len =>
    simp only [CaptureRing.produce]
    split
    · exact ⟨⟨past, hpast, hnext, hledger⟩, by simp, hqueued, hroom, hfits, hbounded, hreads⟩
    · exact ⟨⟨past, hpast, hnext, hledger⟩, by simp, hqueued, hroom, trivial, hbounded, hreads⟩
  | spanReserved samples start len =>
    simp only [CaptureRing.produce]
    split
    case isTrue hslots =>
      have hspace : queue.length + len ≤ capacity := by
        simp only [State.slots] at hslots
        omega
      exact ⟨⟨past, hpast, hnext, hledger⟩, by simp, hqueued, hroom, ⟨hfits, hspace⟩, hbounded,
        hreads⟩
    case isFalse =>
      exact ⟨⟨past, hpast, hnext, hledger⟩, by simp, hqueued, hroom, trivial, hbounded, hreads⟩
  | reserved samples start len =>
    refine ⟨⟨past, hpast, hnext, hledger⟩, by simp [CaptureRing.produce], ?_, hroom, hfits,
      hbounded, hreads⟩
    simp only [CaptureRing.produce, Producing.ahead] at hqueued ⊢
    push_cast at hqueued ⊢
    linarith
  | booked samples start len =>
    refine ⟨⟨past, hpast, hnext, hledger⟩, by simp [CaptureRing.produce], hqueued, ?_, hfits,
      hbounded, hreads⟩
    simp only [CaptureRing.produce, Producing.reservedRoom] at hroom ⊢
    push_cast at hroom ⊢
    linarith
  | taken samples start len =>
    refine ⟨⟨past, hpast, hnext, ?_⟩, by simp [CaptureRing.produce], hqueued, hroom, hfits,
      hbounded, hreads⟩
    have hlen : len ≤ samples.length := hfits.1
    simp only [CaptureRing.produce, Producing.owed] at hledger ⊢
    push_cast [Nat.cast_sub hlen]
    linarith
  | cut samples start len =>
    obtain ⟨hlen, hspace⟩ : len ≤ samples.length ∧ queue.length + len ≤ capacity := hfits
    have hlength : (queue ++ samples.take len).length = queue.length + len := by
      rw [List.length_append, List.length_take, Nat.min_eq_left hlen]
    refine ⟨⟨past, hpast, hnext, ?_⟩, by simp [CaptureRing.produce], ?_, ?_, trivial, ?_, ?_⟩
    all_goals simp only [CaptureRing.produce, Producing.owed, Producing.ahead,
      Producing.reservedRoom, hlength] at hledger hqueued hroom ⊢
    · push_cast at hledger ⊢
      linarith
    · push_cast at hqueued ⊢
      linarith
    · push_cast at hroom ⊢
      linarith
    · exact hspace
    · exact hreads.mono (Nat.le_add_right ..)
  | filled start len =>
    exact ⟨⟨past, hpast, hnext, hledger⟩, by simp [CaptureRing.produce], hqueued, hroom, trivial,
      hbounded, hreads⟩

theorem Books.consume {capacity : ℕ} {blocks : List (List α × ℕ)} {s : State α}
    (hbooks : Books capacity blocks s) (wrap : ℕ) : Books capacity blocks (consume wrap s) := by
  obtain ⟨queue, spans, queued, oldest, dropped, room, next, producing, pending, freshness,
    consuming, received⟩ := s
  obtain ⟨⟨past, hpast, hnext, hledger⟩, hgap, hqueued, hroom, hfits, hbounded, hreads⟩ := hbooks
  dsimp only at hpast hnext hledger hgap hqueued hroom hfits hbounded hreads
  cases consuming with
  | idle =>
    exact ⟨⟨past, hpast, hnext, hledger⟩, hgap, hqueued, hroom, hfits, hbounded, hreads⟩
  | holding span limit maxAge now =>
    simp only [CaptureRing.consume]
    split
    case isTrue havailable =>
      exact ⟨⟨past, hpast, hnext, hledger⟩, hgap, hqueued, hroom, hfits, hbounded,
        Nat.min_le_left .., havailable⟩
    case isFalse =>
      exact ⟨⟨past, hpast, hnext, hledger⟩, hgap, hqueued, hroom, hfits, hbounded, trivial⟩
  | reading span len maxAge now =>
    exact ⟨⟨past, hpast, hnext, hledger⟩, hgap, hqueued, hroom, hfits, hbounded, hreads⟩
  | judged span len fresh =>
    refine ⟨⟨past, hpast, hnext, ?_⟩, hgap, hqueued, hroom, hfits, hbounded, hreads⟩
    simp only [CaptureRing.consume, Consuming.settled] at hledger ⊢
    cases fresh <;> push_cast at hledger ⊢ <;> simp at hledger ⊢ <;> linarith
  | counted span len fresh =>
    refine ⟨⟨past, hpast, hnext, ?_⟩, hgap, hqueued, hroom, hfits, hbounded, hreads⟩
    have hlen : len ≤ queue.length := hreads.2
    have hchunk : ((queue.take len).take wrap).length + ((queue.take len).drop wrap).length =
        len := by
      rw [← List.length_append, List.take_append_drop, List.length_take, Nat.min_eq_left hlen]
    cases fresh with
    | true =>
      simp only [CaptureRing.consume, Consuming.settled, if_true, List.length_append,
        List.length_zipIdx, hchunk] at hledger ⊢
      push_cast at hledger ⊢
      linarith
    | false =>
      simp only [CaptureRing.consume, Consuming.settled, if_false, List.append_nil,
        Bool.false_eq_true] at hledger ⊢
      exact hledger
  | delivered span len =>
    refine ⟨⟨past, hpast, hnext, hledger⟩, hgap, ?_, hroom, hfits, hbounded, hreads⟩
    simp only [CaptureRing.consume, Consuming.behind] at hqueued ⊢
    push_cast at hqueued ⊢
    linarith
  | popped span len =>
    have hlen : len ≤ queue.length := hreads.2
    have hlength : (queue.drop len).length + len = queue.length := by
      rw [List.length_drop]
      omega
    refine ⟨⟨past, hpast, hnext, ?_⟩, hgap, ?_, ?_, hfits.anti ?_, ?_, hreads.1⟩
    all_goals simp only [CaptureRing.consume, Consuming.settled, Consuming.behind,
      Consuming.unfreed] at hledger hqueued hroom ⊢
    · rw [← hlength] at hledger
      push_cast at hledger ⊢
      linarith
    · rw [← hlength] at hqueued
      push_cast at hqueued ⊢
      linarith
    · rw [← hlength] at hroom
      push_cast at hroom ⊢
      linarith
    · omega
    · omega
  | committed span len =>
    refine ⟨⟨past, hpast, hnext, hledger⟩, hgap, hqueued, ?_, hfits, hbounded, trivial⟩
    simp only [CaptureRing.consume, Consuming.unfreed] at hroom ⊢
    push_cast at hroom ⊢
    linarith

theorem Books.push {capacity : ℕ} {blocks : List (List α × ℕ)} {s : State α}
    (hbooks : Books capacity blocks s) (hidle : s.producing = .idle) (samples : List α)
    {start : ℕ} (hstart : ∀ next ∈ s.next, next ≤ start) :
    Books capacity (blocks ++ [(samples, start)])
      { s with producing := .called samples start } := by
  obtain ⟨⟨past, hpast, hnext, hledger⟩, -, hqueued, hroom, -, hbounded, hreads⟩ := hbooks
  rw [hidle] at hpast hledger hqueued hroom
  refine ⟨⟨past, by simpa using hpast, hnext, hledger⟩, ?_, hqueued, hroom, trivial, hbounded,
    hreads⟩
  intro other from₀ heq
  obtain ⟨-, rfl⟩ := Producing.called.inj heq
  exact hstart

theorem Books.take {capacity : ℕ} {blocks : List (List α × ℕ)} {s : State α}
    (hbooks : Books capacity blocks s) (hidle : s.consuming = .idle) (limit maxAge now : ℕ) :
    Books capacity blocks (take limit maxAge now s) := by
  unfold CaptureRing.take
  obtain ⟨⟨past, hpast, hnext, hledger⟩, hgap, hqueued, hroom, hfits, hbounded, hreads⟩ := hbooks
  rw [hidle] at hledger hqueued hroom
  split
  · exact ⟨⟨past, hpast, hnext, hledger⟩, hgap, hqueued, hroom, hfits, hbounded, trivial⟩
  · exact ⟨⟨past, hpast, hnext, hledger⟩, hgap, hqueued, hroom, hfits, hbounded, trivial⟩
  · exact ⟨⟨past, hpast, hnext, by rw [hidle]; exact hledger⟩, hgap, by rw [hidle]; exact hqueued,
      by rw [hidle]; exact hroom, hfits, hbounded, hreads⟩

/-! ## The labels -/

/-- The samples of a queue with the indices its spans give them. -/
def labelled : List Span → List α → List (α × ℕ)
  | [], _ => []
  | span :: spans, samples =>
      (samples.take span.len).zipIdx span.start ++ labelled spans (samples.drop span.len)

def total (spans : List Span) : ℕ := (spans.map (·.len)).sum

theorem labelled_append (first second : List Span) (samples : List α) :
    labelled (first ++ second) samples =
      labelled first samples ++ labelled second (samples.drop (total first)) := by
  induction first generalizing samples with
  | nil => simp [labelled, total]
  | cons span first ih =>
    simp only [List.cons_append, labelled, ih, List.append_assoc, List.drop_drop, total,
      List.map_cons, List.sum_cons]

/-- Samples queued behind the last span are not labelled yet. -/
theorem labelled_samples_append {spans : List Span} {samples : List α}
    (htotal : total spans ≤ samples.length) (more : List α) :
    labelled spans (samples ++ more) = labelled spans samples := by
  induction spans generalizing samples with
  | nil => rfl
  | cons span spans ih =>
    have hsum : total (span :: spans) = span.len + total spans := by simp [total]
    have hrest : total spans ≤ (samples.drop span.len).length := by
      rw [List.length_drop]
      omega
    simp only [labelled]
    rw [List.take_append_of_le_length (by omega), List.drop_append_of_le_length (by omega),
      ih hrest]

/-- Consuming from the first span leaves the labels of the rest as they were. -/
theorem labelled_advance {span : Span} {spans : List Span} {samples : List α} {len : ℕ}
    (hspan : len ≤ span.len) (hsamples : len ≤ samples.length) :
    labelled (span :: spans) samples =
      (samples.take len).zipIdx span.start ++
        labelled (span.advance len :: spans) (samples.drop len) := by
  have hsplit : samples.take span.len =
      samples.take len ++ (samples.drop len).take (span.len - len) := by
    rw [← List.take_add, Nat.add_sub_cancel' hspan]
  simp only [labelled, Span.advance, List.drop_drop, Nat.add_sub_cancel' hspan]
  rw [hsplit, List.zipIdx_append, List.length_take, Nat.min_eq_left hsamples, List.append_assoc]

namespace Producing

/-- The block in hand, while none of it is queued. -/
def offering : Producing α → List (α × ℕ)
  | .called samples start | .counted samples start | .sized samples start _
  | .spanReserved samples start _ | .reserved samples start _ | .booked samples start _
  | .taken samples start _ | .cut samples start _ => samples.zipIdx start
  | .idle | .refusing _ | .filled _ _ => []

/-- The span of samples that are queued before it is. -/
def openSpan : Producing α → List Span
  | .filled start len => [⟨start, len, 0⟩]
  | _ => []

end Producing

namespace Consuming

/-- The span in the consumer's hands. -/
def openSpan (pending : Option Span) : Consuming → List Span
  | .idle => pending.toList
  | .holding span _ _ _ | .reading span _ _ _ | .judged span _ _ | .counted span _ _
  | .delivered span _ | .popped span _ => [span]
  | .committed span len => [span.advance len]

/-- Samples delivered while still queued. -/
def inHand (samples : List α) : Consuming → List (α × ℕ)
  | .delivered span len | .popped span len => (samples.take len).zipIdx span.start
  | _ => []

end Consuming

def State.openSpans (s : State α) : List Span :=
  s.consuming.openSpan s.pending ++ s.spans ++ s.producing.openSpan

/-- What is queued carries the indices it was pushed with, behind what was consumed, and what was
received is among that and the samples in hand. -/
structure Ordered (all offering : List (α × ℕ)) (spans : List Span) (samples : List α)
    (received inHand : List (α × ℕ)) : Prop where
  order : ∃ before consumed, all = before ++ offering ∧
    (consumed ++ labelled spans samples).Sublist before ∧ received.Sublist (consumed ++ inHand)
  total_eq : total spans = samples.length

namespace Ordered

variable {all offering received inHand : List (α × ℕ)} {spans : List Span} {queue : List α}

theorem refuse (hordered : Ordered all offering spans queue received inHand) :
    Ordered all [] spans queue received inHand := by
  obtain ⟨⟨before, consumed, hall, hqueue, hreceived⟩, htotal⟩ := hordered
  exact ⟨⟨all, consumed, (List.append_nil all).symm,
    hqueue.trans (hall ▸ List.sublist_append_left before offering), hreceived⟩, htotal⟩

theorem push (hordered : Ordered all [] spans queue received inHand) (block : List (α × ℕ)) :
    Ordered (all ++ block) block spans queue received inHand := by
  obtain ⟨⟨before, consumed, hall, hqueue, hreceived⟩, htotal⟩ := hordered
  rw [List.append_nil] at hall
  exact ⟨⟨before, consumed, by rw [hall], hqueue, hreceived⟩, htotal⟩

/-- The accepted head of the block in hand becomes visible, with a span of its own. -/
theorem fill {samples : List α} {start : ℕ}
    (hordered : Ordered all (samples.zipIdx start) spans queue received inHand) {len : ℕ}
    (hlen : len ≤ samples.length) (stamp : ℕ) :
    Ordered all [] (spans ++ [⟨start, len, stamp⟩]) (queue ++ samples.take len) received
      inHand := by
  obtain ⟨⟨before, consumed, hall, hqueue, hreceived⟩, htotal⟩ := hordered
  have hlabels : labelled (spans ++ [⟨start, len, stamp⟩]) (queue ++ samples.take len) =
      labelled spans queue ++ (samples.take len).zipIdx start := by
    rw [labelled_append, labelled_samples_append htotal.le, htotal, List.drop_left]
    simp [labelled, List.take_take]
  have hhead : ((samples.take len).zipIdx start).Sublist (samples.zipIdx start) := by
    have hsplit : samples.zipIdx start = (samples.take len).zipIdx start ++
        (samples.drop len).zipIdx (start + (samples.take len).length) := by
      rw [← List.zipIdx_append, List.take_append_drop]
    rw [hsplit]
    exact List.sublist_append_left _ _
  refine ⟨⟨all, consumed, (List.append_nil all).symm, ?_, hreceived⟩, ?_⟩
  · rw [hlabels, ← List.append_assoc, hall]
    exact hqueue.append hhead
  · have hsum : total (spans ++ [⟨start, len, stamp⟩]) = total spans + len := by simp [total]
    rw [hsum, htotal, List.length_append, List.length_take, Nat.min_eq_left hlen]

theorem restamp {first : List Span} {start len stamp : ℕ} (other : ℕ)
    (hordered : Ordered all offering (first ++ [⟨start, len, stamp⟩]) queue received inHand) :
    Ordered all offering (first ++ [⟨start, len, other⟩]) queue received inHand := by
  obtain ⟨⟨before, consumed, hall, hqueue, hreceived⟩, htotal⟩ := hordered
  rw [labelled_append] at hqueue
  refine ⟨⟨before, consumed, hall, ?_, hreceived⟩, ?_⟩
  · rw [labelled_append]
    exact hqueue
  · simpa [total] using htotal

/-- Delivering the head of the queue, or passing over it. -/
theorem deliver {span : Span} {rest : List Span} {len : ℕ} {chunk : List (α × ℕ)}
    (hordered : Ordered all offering (span :: rest) queue received [])
    (hchunk : chunk.Sublist ((queue.take len).zipIdx span.start)) :
    Ordered all offering (span :: rest) queue (received ++ chunk)
      ((queue.take len).zipIdx span.start) := by
  obtain ⟨⟨before, consumed, hall, hqueue, hreceived⟩, htotal⟩ := hordered
  rw [List.append_nil] at hreceived
  exact ⟨⟨before, consumed, hall, hqueue, hreceived.append hchunk⟩, htotal⟩

theorem commit {span : Span} {rest : List Span} {len : ℕ}
    (hordered : Ordered all offering (span :: rest) queue received
      ((queue.take len).zipIdx span.start))
    (hspan : len ≤ span.len) (hsamples : len ≤ queue.length) :
    Ordered all offering (span.advance len :: rest) (queue.drop len) received [] := by
  obtain ⟨⟨before, consumed, hall, hqueue, hreceived⟩, htotal⟩ := hordered
  refine ⟨⟨before, consumed ++ (queue.take len).zipIdx span.start, hall, ?_, ?_⟩, ?_⟩
  · rw [labelled_advance hspan hsamples, ← List.append_assoc] at hqueue
    exact hqueue
  · rw [List.append_nil]
    exact hreceived
  · have hsum : total (span :: rest) = span.len + total rest := by simp [total]
    have hrest : total (span.advance len :: rest) = span.len - len + total rest := by
      simp [total, Span.advance]
    rw [hrest, List.length_drop]
    omega

theorem dropEmpty {span : Span} {rest : List Span} (hempty : span.len = 0)
    (hordered : Ordered all offering (span :: rest) queue received inHand) :
    Ordered all offering rest queue received inHand := by
  obtain ⟨⟨before, consumed, hall, hqueue, hreceived⟩, htotal⟩ := hordered
  refine ⟨⟨before, consumed, hall, ?_, hreceived⟩, ?_⟩
  · simpa [labelled, hempty] using hqueue
  · simpa [total, hempty] using htotal

end Ordered

def Labels (blocks : List (List α × ℕ)) (s : State α) : Prop :=
  Ordered (pushed blocks) s.producing.offering s.openSpans s.samples s.received
    (s.consuming.inHand s.samples)

attribute [simp] Producing.offering Producing.openSpan Consuming.openSpan Consuming.inHand

theorem Consuming.inHand_append {consuming : Consuming} {samples : List α}
    (hreads : consuming.Reads samples.length) (more : List α) :
    consuming.inHand (samples ++ more) = consuming.inHand samples := by
  cases consuming with
  | idle | holding | reading | judged | counted | committed => rfl
  | delivered span len | popped span len =>
    simp only [Consuming.inHand, List.take_append_of_le_length hreads.2]

/-- Only the step that makes samples visible and the one that posts their span touch labels. -/
theorem Labels.produce {capacity : ℕ} {blocks : List (List α × ℕ)} {s : State α}
    (hlabels : Labels blocks s) (hfits : s.producing.Fits capacity s.samples.length)
    (hreads : s.consuming.Reads s.samples.length) (now : ℕ) :
    Labels blocks (produce capacity now s) := by
  obtain ⟨queue, spans, queued, oldest, dropped, room, next, producing, pending, freshness,
    consuming, received⟩ := s
  cases producing with
  | idle | called | refusing | reserved | booked | taken => exact hlabels
  | counted samples start =>
    simp only [CaptureRing.produce]
    split
    · exact Ordered.refuse hlabels
    · exact hlabels
  | sized samples start len =>
    simp only [CaptureRing.produce]
    split
    · exact hlabels
    · exact Ordered.refuse hlabels
  | spanReserved samples start len =>
    simp only [CaptureRing.produce]
    split
    · exact hlabels
    · exact Ordered.refuse hlabels
  | cut samples start len =>
    have hfilled := Ordered.fill hlabels hfits.1 0
    unfold Labels
    simp only [CaptureRing.produce, Producing.offering, State.openSpans, Producing.openSpan,
      List.append_nil] at hfilled ⊢
    rw [Consuming.inHand_append hreads]
    exact hfilled
  | filled start len =>
    have hstamped := Ordered.restamp now hlabels
    unfold Labels
    simp only [CaptureRing.produce, Producing.offering, State.openSpans, Producing.openSpan,
      List.append_nil, List.append_assoc] at hstamped ⊢
    exact hstamped

theorem Labels.consume {blocks : List (List α × ℕ)} {s : State α} (hlabels : Labels blocks s)
    (hreads : s.consuming.Reads s.samples.length) (wrap : ℕ) :
    Labels blocks (consume wrap s) := by
  obtain ⟨queue, spans, queued, oldest, dropped, room, next, producing, pending, freshness,
    consuming, received⟩ := s
  cases consuming with
  | idle | reading | judged | delivered => exact hlabels
  | holding span limit maxAge now =>
    simp only [CaptureRing.consume]
    split
    · exact hlabels
    · exact hlabels
  | counted span len fresh =>
    have hchunk : ((queue.take len).take wrap).zipIdx span.start ++
        ((queue.take len).drop wrap).zipIdx
          (span.start + ((queue.take len).take wrap).length) =
        (queue.take len).zipIdx span.start := by
      rw [← List.zipIdx_append, List.take_append_drop]
    refine Ordered.deliver hlabels ?_
    cases fresh with
    | true => exact hchunk ▸ List.Sublist.refl _
    | false => exact List.nil_sublist _
  | popped span len => exact Ordered.commit hlabels hreads.1 hreads.2
  | committed span len =>
    by_cases hleft : 0 < (span.advance len).len
    · simp only [CaptureRing.consume, if_pos hleft]
      exact hlabels
    · simp only [CaptureRing.consume, if_neg hleft]
      exact Ordered.dropEmpty (Nat.eq_zero_of_not_pos hleft) hlabels

theorem Labels.take {blocks : List (List α × ℕ)} {s : State α} (hlabels : Labels blocks s)
    (hidle : s.consuming = .idle) (limit maxAge now : ℕ) :
    Labels blocks (take limit maxAge now s) := by
  obtain ⟨queue, spans, queued, oldest, dropped, room, next, producing, pending, freshness,
    consuming, received⟩ := s
  obtain rfl : consuming = .idle := hidle
  cases pending with
  | some span => exact hlabels
  | none =>
    cases spans with
    | nil => exact hlabels
    | cons span spans => exact hlabels

theorem Labels.push {blocks : List (List α × ℕ)} {s : State α} (hlabels : Labels blocks s)
    (hidle : s.producing = .idle) (samples : List α) (start : ℕ) :
    Labels (blocks ++ [(samples, start)]) { s with producing := .called samples start } := by
  unfold Labels State.openSpans at hlabels ⊢
  rw [hidle] at hlabels
  have hpushed : pushed (blocks ++ [(samples, start)]) =
      pushed blocks ++ samples.zipIdx start := by
    simp [pushed]
  rw [hpushed]
  exact Ordered.push hlabels _

/-- Blocks in capture order give every sample an index of its own, in order. -/
structure Increasing (blocks : List (List α × ℕ)) : Prop where
  pairwise : (pushed blocks).Pairwise (fun x y ↦ x.2 < y.2)
  below : ∀ last ∈ lastEnd blocks, ∀ x ∈ pushed blocks, x.2 < last

theorem pairwise_zipIdx (samples : List α) (start : ℕ) :
    (samples.zipIdx start).Pairwise (fun x y ↦ x.2 < y.2) := by
  have hindices : ((samples.zipIdx start).map Prod.snd).Pairwise (· < ·) := by
    rw [List.zipIdx_map_snd]
    exact List.pairwise_lt_range'
  exact List.pairwise_map.mp hindices

theorem Increasing.snoc {blocks : List (List α × ℕ)} (hincreasing : Increasing blocks)
    (samples : List α) {start : ℕ} (hstart : ∀ last ∈ lastEnd blocks, last ≤ start) :
    Increasing (blocks ++ [(samples, start)]) := by
  have hpushed : pushed (blocks ++ [(samples, start)]) =
      pushed blocks ++ samples.zipIdx start := by
    simp [pushed]
  have hearlier : ∀ x ∈ pushed blocks, x.2 < start := by
    intro x hx
    cases hlast : lastEnd blocks with
    | none =>
      obtain rfl : blocks = [] := by simpa [lastEnd] using hlast
      simp [pushed] at hx
    | some last => exact (hincreasing.below last hlast x hx).trans_le (hstart last hlast)
  refine ⟨?_, ?_⟩
  · rw [hpushed, List.pairwise_append]
    refine ⟨hincreasing.pairwise, pairwise_zipIdx samples start, ?_⟩
    intro x hx y hy
    exact (hearlier x hx).trans_le (List.le_snd_of_mem_zipIdx hy)
  · intro last hlast x hx
    rw [lastEnd_snoc] at hlast
    obtain rfl := Option.some.inj hlast
    rw [hpushed] at hx
    rcases List.mem_append.mp hx with hx | hx
    · exact (hearlier x hx).trans_le (Nat.le_add_right ..)
    · exact List.snd_lt_add_of_mem_zipIdx hx

/-! ## Runs -/

structure Invariant (capacity : ℕ) (events : List (Event α)) (s : State α) : Prop where
  books : Books capacity (blocks events) s
  labels : Labels (blocks events) s
  increasing : Increasing (blocks events)

theorem Invariant.initial (capacity : ℕ) :
    Invariant capacity [] (captureRing capacity : State α) where
  books := ⟨⟨[], rfl, rfl, rfl⟩, by simp [captureRing], rfl, by simp [captureRing], trivial,
    Nat.zero_le _, trivial⟩
  labels := ⟨⟨[], [], rfl, List.Sublist.refl _, List.Sublist.refl _⟩, rfl⟩
  increasing := ⟨List.Pairwise.nil, by simp [lastEnd, blocks]⟩

theorem blocks_snoc (events : List (Event α)) (event : Event α) :
    blocks (events ++ [event]) = blocks events ++ blocks [event] :=
  List.filterMap_append

theorem Invariant.step {capacity : ℕ} {events : List (Event α)} {s t : State α}
    (hinv : Invariant capacity events s) (event : Event α)
    (hstep : step capacity s event = some t) : Invariant capacity (events ++ [event]) t := by
  obtain ⟨hbooks, hlabels, hincreasing⟩ := hinv
  cases event with
  | push samples start =>
    have hsnoc : blocks (events ++ [.push samples start]) =
        blocks events ++ [(samples, start)] := blocks_snoc ..
    simp only [CaptureRing.step] at hstep
    cases hproducing : s.producing with
    | idle =>
      simp only [hproducing] at hstep
      by_cases hstart : s.next.all (· ≤ start) = true
      · rw [if_pos hstart] at hstep
        obtain rfl := Option.some.inj hstep
        have hle : ∀ next ∈ s.next, next ≤ start := by simpa [Option.all_eq_true] using hstart
        obtain ⟨past, hpast, hnext, -⟩ := hbooks.ledger
        rw [hproducing] at hpast
        have hlast : s.next = lastEnd (blocks events) := by rw [hnext, hpast]; simp
        exact ⟨hsnoc ▸ hbooks.push hproducing samples hle,
          hsnoc ▸ hlabels.push hproducing samples start,
          hsnoc ▸ hincreasing.snoc samples (hlast ▸ hle)⟩
      · rw [if_neg hstart] at hstep
        cases hstep
    | _ => simp [hproducing] at hstep
  | produce now =>
    obtain rfl := Option.some.inj hstep
    have hsame : blocks (events ++ [.produce now]) = blocks events := by simp [blocks]
    rw [← hsame] at hbooks hlabels hincreasing
    exact ⟨hbooks.produce now, hlabels.produce hbooks.fits hbooks.reads now, hincreasing⟩
  | take limit maxAge now =>
    have hsame : blocks (events ++ [.take limit maxAge now]) = blocks events := by simp [blocks]
    rw [← hsame] at hbooks hlabels hincreasing
    simp only [CaptureRing.step] at hstep
    cases hconsuming : s.consuming with
    | idle =>
      simp only [hconsuming] at hstep
      obtain rfl := Option.some.inj hstep
      exact ⟨hbooks.take hconsuming limit maxAge now, hlabels.take hconsuming limit maxAge now,
        hincreasing⟩
    | _ => simp [hconsuming] at hstep
  | consume wrap =>
    obtain rfl := Option.some.inj hstep
    have hsame : blocks (events ++ [.consume wrap]) = blocks events := by simp [blocks]
    rw [← hsame] at hbooks hlabels hincreasing
    exact ⟨hbooks.consume wrap, hlabels.consume hbooks.reads wrap, hincreasing⟩

theorem invariant_of_run {capacity : ℕ} (events : List (Event α)) {s : State α}
    (hrun : run capacity events = some s) : Invariant capacity events s := by
  induction events using List.reverseRecOn generalizing s with
  | nil =>
    obtain rfl := Option.some.inj hrun
    exact Invariant.initial capacity
  | append_singleton events event ih =>
    rw [run, List.foldlM_append] at hrun
    obtain ⟨middle, hmiddle, hlast⟩ := Option.bind_eq_some_iff.mp hrun
    have hstep : step capacity middle event = some s := by simpa using hlast
    exact (ih hmiddle).step event hstep

theorem inHand_sublist {s : State α} (hreads : s.consuming.Reads s.samples.length) :
    (s.consuming.inHand s.samples).Sublist (labelled s.openSpans s.samples) := by
  unfold State.openSpans
  cases hconsuming : s.consuming with
  | idle | holding | reading | judged | counted | committed => exact List.nil_sublist _
  | delivered span len | popped span len =>
    rw [hconsuming] at hreads
    simp only [Consuming.openSpan, Consuming.inHand, List.cons_append, List.nil_append]
    rw [labelled_advance hreads.1 hreads.2]
    exact List.sublist_append_left _ _

/-- However the two sides interleave, what is received is a part of what was pushed, each sample
at most once, in order and under the index it was pushed with; and whenever neither side is inside
a call, every sample pushed past is received, queued or counted as dropped, and the advertised
room is what the queue leaves free. -/
theorem run_conserves (capacity : ℕ) (events : List (Event α)) (s : State α)
    (hrun : run capacity events = some s) :
    s.received.Sublist (pushed (blocks events)) ∧
      (pushed (blocks events)).Pairwise (fun x y ↦ x.2 < y.2) ∧
      (s.Quiescent →
        (s.received.length : ℤ) + s.dropped + s.queued = extent (blocks events) ∧
          s.free = capacity - s.queued) := by
  obtain ⟨hbooks, hlabels, hincreasing⟩ := invariant_of_run events hrun
  refine ⟨?_, hincreasing.pairwise, ?_⟩
  · obtain ⟨⟨before, consumed, hall, hqueue, hreceived⟩, -⟩ := hlabels
    have hheld := (inHand_sublist hbooks.reads).append_left consumed
    have hbefore := hall ▸ List.sublist_append_left before s.producing.offering
    exact ((hreceived.trans hheld).trans hqueue).trans hbefore
  · rintro ⟨hproducing, hconsuming⟩
    obtain ⟨past, hpast, -, hledger⟩ := hbooks.ledger
    have hqueued := hbooks.queued
    have hroom := hbooks.room
    have hbounded : (s.samples.length : ℤ) ≤ capacity := by exact_mod_cast hbooks.bounded
    rw [hproducing] at hpast hledger hqueued hroom
    rw [hconsuming] at hledger hqueued hroom
    simp only [Producing.uncounted, List.append_nil, Producing.owed, Consuming.settled,
      Producing.ahead, Consuming.behind, Producing.reservedRoom, Consuming.unfreed, Nat.cast_zero,
      add_zero, sub_zero] at hpast hledger hqueued hroom
    refine ⟨?_, ?_⟩
    · rw [hpast, hqueued]
      exact hledger
    · unfold State.free
      rw [hroom, hqueued, max_eq_left (sub_nonneg.mpr hbounded)]

/-- Three samples pushed from index five, the middle of the push overlapping a read of two. -/
theorem run_conserves_overlap :
    let events : List (Event ℕ) := .push [10, 11, 12] 5 :: List.replicate 10 (.produce 0) ++
      .push [13] 9 :: List.replicate 3 (.produce 1) ++ .take 2 100 1 ::
      List.replicate 7 (.consume 1) ++ List.replicate 7 (.produce 2)
    ∃ s, run 4 events = some s ∧ s.received = [(10, 5), (11, 6)] ∧
      (s.received.length : ℤ) + s.dropped + s.queued = extent (blocks events) ∧
      s.free = 4 - s.queued :=
  ⟨_, rfl, rfl, (run_conserves 4 _ _ rfl).2.2 ⟨rfl, rfl⟩⟩

end Sdrmm.CaptureRing
