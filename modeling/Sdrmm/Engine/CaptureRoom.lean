import Sdrmm.Engine.CaptureRing

/-!
# What the advertised room promises

`SinkRoom::free` counts samples, but a push also needs a slot for its span, and there are at most
4096 of those.  A push that the room has space for is accepted in full unless that many spans are
waiting, whatever the consumer does meanwhile; in a ring of at most 4096 samples they never are.
-/

namespace Sdrmm.CaptureRing

variable {α : Type}

namespace Producing

/-- What the call returns if its next step is its last. -/
def returns : Producing α → Option ℕ
  | .refusing _ => some 0
  | .filled _ len => some len
  | _ => none

/-- The steps a call that is not refused has left. -/
def stepsLeft : Producing α → ℕ
  | .idle => 0
  | .called _ _ => 9
  | .counted _ _ => 8
  | .sized _ _ _ => 7
  | .spanReserved _ _ _ => 6
  | .reserved _ _ _ => 5
  | .booked _ _ _ => 4
  | .taken _ _ _ => 3
  | .cut _ _ _ => 2
  | .filled _ _ | .refusing _ => 1

/-- A call that is going to accept all `n` samples: there is space for as many, and for a span as long as
it has not asked for it. -/
def Accepting (capacity n used spans : ℕ) : Producing α → Prop
  | .called samples _ | .counted samples _ =>
      samples.length = n ∧ used + n ≤ capacity ∧ spans < min capacity spanCapacity
  | .sized samples _ len =>
      (samples.length = n ∧ len = n) ∧ used + n ≤ capacity ∧ spans < min capacity spanCapacity
  | .spanReserved samples _ len => (samples.length = n ∧ len = n) ∧ used + n ≤ capacity
  | .reserved samples _ len | .booked samples _ len | .taken samples _ len | .cut samples _ len =>
      samples.length = n ∧ len = n
  | .filled _ len => len = n
  | .idle | .refusing _ => False

theorem Accepting.anti {producing : Producing α} {capacity n used less spans fewer : ℕ}
    (haccepting : producing.Accepting capacity n used spans) (hless : less ≤ used)
    (hfewer : fewer ≤ spans) : producing.Accepting capacity n less fewer := by
  cases producing with
  | idle | refusing => exact haccepting
  | called | counted | sized =>
    obtain ⟨hlen, hfits, hspans⟩ := haccepting
    exact ⟨hlen, by omega, by omega⟩
  | spanReserved =>
    obtain ⟨hlen, hfits⟩ := haccepting
    exact ⟨hlen, by omega⟩
  | reserved | booked | taken | cut | filled => exact haccepting

end Producing

def Event.isProduce : Event α → Bool
  | .produce _ => true
  | _ => false

/-- What a step of the call counts as dropped, but for the gap before its block. -/
def drops (capacity : ℕ) (s : State α) : Event α → ℕ
  | .produce now =>
    match s.producing with
    | .called _ _ => 0
    | _ => (produce capacity now s).dropped - s.dropped
  | _ => 0

/-- What the call under way returns in the course of the events, and what it drops until then. -/
def returned (capacity : ℕ) (s : State α) : List (Event α) → Option (ℕ × ℕ)
  | [] => none
  | event :: events =>
    match event.isProduce, s.producing.returns with
    | true, some n => some (n, drops capacity s event)
    | _, _ => (step capacity s event).bind fun t ↦
        (returned capacity t events).map fun result ↦
          (result.1, drops capacity s event + result.2)

theorem returned_of_step {capacity : ℕ} {s t : State α} {event : Event α} {events : List (Event α)}
    (hstep : step capacity s event = some t)
    (hgoes : event.isProduce = true → s.producing.returns = none)
    (hkeeps : drops capacity s event = 0) :
    returned capacity s (event :: events) = returned capacity t events := by
  rw [returned]
  split
  · next hproduce hreturns => exact nomatch (hgoes hproduce).symm.trans hreturns
  · rw [hstep, Option.bind_some, hkeeps]
    cases returned capacity t events with
    | none => rfl
    | some result => rw [Option.map_some, Nat.zero_add]

theorem returned_of_returns {capacity n : ℕ} {s : State α} {event : Event α}
    {events : List (Event α)} (hproduce : event.isProduce = true)
    (hreturns : s.producing.returns = some n) :
    returned capacity s (event :: events) = some (n, drops capacity s event) := by
  rw [returned, hproduce, hreturns]

/-- The state in which `push` has just been called. -/
def State.call (s : State α) (samples : List α) (start : ℕ) : State α :=
  { s with producing := .called samples start }

/-- A call of `push` returns the length of its block and drops nothing, however its nine steps and those
of the consumer are ordered. -/
def State.Accepts (capacity : ℕ) (s : State α) (samples : List α) (start : ℕ) : Prop :=
  ∀ events t, events.foldlM (step capacity) (s.call samples start) = some t →
    9 ≤ events.countP Event.isProduce →
    returned capacity (s.call samples start) events = some (samples.length, 0)

/-! ## A call that is accepted -/

def State.Accepting (capacity n : ℕ) (s : State α) : Prop :=
  s.producing.Accepting capacity n s.samples.length s.spans.length

variable {capacity n : ℕ} {s : State α}

theorem State.Accepting.produce (haccepting : s.Accepting capacity n) (hpos : 0 < n)
    (hgoes : s.producing.returns = none) (now : ℕ) :
    (produce capacity now s).Accepting capacity n ∧
      (produce capacity now s).producing.stepsLeft + 1 = s.producing.stepsLeft ∧
      drops capacity s (.produce now) = 0 := by
  obtain ⟨queue, spans, queued, oldest, dropped, room, next, producing, pending, freshness,
    consuming, received⟩ := s
  cases producing with
  | idle | refusing => exact absurd haccepting id
  | filled => exact nomatch hgoes
  | called samples start => exact ⟨haccepting, rfl, rfl⟩
  | counted samples start =>
    obtain ⟨hlen, hfits, hspans⟩ := haccepting
    have hmin : min samples.length (capacity - queue.length) = n := by
      dsimp only at hfits
      omega
    simp only [drops, CaptureRing.produce, State.slots, hmin]
    rw [if_neg hpos.ne']
    exact ⟨⟨⟨hlen, rfl⟩, hfits, hspans⟩, rfl, Nat.sub_self _⟩
  | sized samples start len =>
    obtain ⟨hlen, hfits, hspans⟩ := haccepting
    simp only [drops, CaptureRing.produce]
    rw [if_pos hspans]
    exact ⟨⟨hlen, hfits⟩, rfl, Nat.sub_self _⟩
  | spanReserved samples start len =>
    obtain ⟨hlen, hfits⟩ := haccepting
    have hslots : len ≤ capacity - queue.length := by
      dsimp only at hfits
      omega
    simp only [drops, CaptureRing.produce]
    split
    · exact ⟨hlen, rfl, Nat.sub_self _⟩
    · next hfull => exact absurd hslots hfull
  | taken samples start len =>
    obtain ⟨hsamples, hlen⟩ := haccepting
    refine ⟨⟨hsamples, hlen⟩, rfl, ?_⟩
    simp only [drops, CaptureRing.produce]
    omega
  | reserved | booked => exact ⟨haccepting, rfl, Nat.sub_self _⟩
  | cut samples start len => exact ⟨haccepting.2, rfl, Nat.sub_self _⟩

/-- Nothing the consumer does takes space away from the producer. -/
theorem State.Accepting.consume (haccepting : s.Accepting capacity n) (wrap : ℕ) :
    (consume wrap s).Accepting capacity n ∧ (consume wrap s).producing = s.producing := by
  obtain ⟨queue, spans, queued, oldest, dropped, room, next, producing, pending, freshness,
    consuming, received⟩ := s
  cases consuming with
  | idle | reading | judged | counted | delivered | committed => exact ⟨haccepting, rfl⟩
  | holding span limit maxAge now =>
    simp only [CaptureRing.consume]
    split
    · exact ⟨haccepting, rfl⟩
    · exact ⟨haccepting, rfl⟩
  | popped span len =>
    constructor
    · apply Producing.Accepting.anti haccepting
      · rw [CaptureRing.consume, List.length_drop]
        exact Nat.sub_le _ _
      · exact le_rfl
    · rfl

theorem State.Accepting.take (haccepting : s.Accepting capacity n) (limit maxAge now : ℕ) :
    (take limit maxAge now s).Accepting capacity n ∧
      (take limit maxAge now s).producing = s.producing := by
  unfold CaptureRing.take
  split
  · exact ⟨haccepting, rfl⟩
  · next span spans _ hspans =>
    constructor
    · apply Producing.Accepting.anti haccepting
      · exact le_rfl
      · rw [hspans]
        exact Nat.le_succ _
    · rfl
  · exact ⟨haccepting, rfl⟩

theorem State.Accepting.returns {m : ℕ} (haccepting : s.Accepting capacity n)
    (hreturns : s.producing.returns = some m) (event : Event α) :
    m = n ∧ drops capacity s event = 0 := by
  obtain ⟨queue, spans, queued, oldest, dropped, room, next, producing, pending, freshness,
    consuming, received⟩ := s
  cases producing with
  | filled start len =>
    constructor
    · rw [← Option.some.inj hreturns]
      exact haccepting
    · cases event with
      | produce now => exact Nat.sub_self _
      | push | take | consume => rfl
  | refusing => exact absurd haccepting id
  | _ => exact nomatch hreturns

theorem State.Accepting.stepsLeft_pos (haccepting : s.Accepting capacity n) :
    0 < s.producing.stepsLeft := by
  unfold State.Accepting at haccepting
  cases hproducing : s.producing with
  | idle =>
    rw [hproducing] at haccepting
    exact absurd haccepting id
  | _ => exact Nat.succ_pos _

/-- A step of either side, but for the one that ends the call. -/
theorem State.Accepting.step (haccepting : s.Accepting capacity n) (hpos : 0 < n)
    {event : Event α} {t : State α} (hstep : step capacity s event = some t)
    (hgoes : event.isProduce = true → s.producing.returns = none) :
    t.Accepting capacity n ∧
      t.producing.stepsLeft + (if event.isProduce then 1 else 0) = s.producing.stepsLeft ∧
      drops capacity s event = 0 := by
  cases event with
  | push samples start =>
    -- a call is under way
    have hleft := haccepting.stepsLeft_pos
    simp only [CaptureRing.step] at hstep
    cases hproducing : s.producing with
    | idle =>
      rw [hproducing] at hleft
      exact absurd hleft (Nat.lt_irrefl 0)
    | _ => simp [hproducing] at hstep
  | produce now =>
    obtain rfl := Option.some.inj hstep
    exact haccepting.produce hpos (hgoes rfl) now
  | take limit maxAge now =>
    obtain ⟨hnext, hsame⟩ := haccepting.take limit maxAge now
    simp only [CaptureRing.step] at hstep
    cases hconsuming : s.consuming with
    | idle =>
      simp only [hconsuming] at hstep
      obtain rfl := Option.some.inj hstep
      exact ⟨hnext, congrArg Producing.stepsLeft hsame, rfl⟩
    | _ => simp [hconsuming] at hstep
  | consume wrap =>
    obtain ⟨hnext, hsame⟩ := haccepting.consume wrap
    obtain rfl := Option.some.inj hstep
    exact ⟨hnext, congrArg Producing.stepsLeft hsame, rfl⟩

theorem State.Accepting.returned (haccepting : s.Accepting capacity n) (hpos : 0 < n)
    {events : List (Event α)} {t : State α}
    (hrun : events.foldlM (CaptureRing.step capacity) s = some t)
    (henough : s.producing.stepsLeft ≤ events.countP Event.isProduce) :
    CaptureRing.returned capacity s events = some (n, 0) := by
  induction events generalizing s with
  | nil => exact absurd haccepting.stepsLeft_pos (not_lt.mpr henough)
  | cons event events ih =>
    rw [List.foldlM_cons] at hrun
    obtain ⟨middle, hmiddle, hlast⟩ := Option.bind_eq_some_iff.mp hrun
    rw [List.countP_cons] at henough
    by_cases hends : event.isProduce = true ∧ s.producing.returns ≠ none
    · obtain ⟨m, hreturns⟩ := Option.ne_none_iff_exists'.mp hends.2
      obtain ⟨hall, hkept⟩ := haccepting.returns hreturns event
      rw [returned_of_returns hends.1 hreturns, hall, hkept]
    · have hgoes : event.isProduce = true → s.producing.returns = none := by
        intro hproduce
        by_contra hreturns
        exact hends ⟨hproduce, hreturns⟩
      obtain ⟨hnext, hleft, hkept⟩ := haccepting.step hpos hmiddle hgoes
      rw [returned_of_step hmiddle hgoes hkept]
      apply ih hnext hlast
      omega

/-! ## Spans and samples -/

/-- A length that has been agreed on is not zero. -/
def Producing.Positive : Producing α → Prop
  | .sized _ _ len | .spanReserved _ _ len | .reserved _ _ len | .booked _ _ len | .taken _ _ len
  | .cut _ _ len | .filled _ len => 0 < len
  | .idle | .called _ _ | .counted _ _ | .refusing _ => True

/-- No span in the queue is empty. -/
structure Whole (s : State α) : Prop where
  spans : ∀ span ∈ s.spans, 0 < span.len
  producing : s.producing.Positive

theorem Whole.produce (hwhole : Whole s) (now : ℕ) : Whole (produce capacity now s) := by
  obtain ⟨queue, spans, queued, oldest, dropped, room, next, producing, pending, freshness,
    consuming, received⟩ := s
  obtain ⟨hspans, hproducing⟩ := hwhole
  cases producing with
  | idle | called | refusing => exact ⟨hspans, trivial⟩
  | counted samples start =>
    simp only [CaptureRing.produce]
    split
    · exact ⟨hspans, trivial⟩
    · next hsome => exact ⟨hspans, Nat.pos_of_ne_zero hsome⟩
  | sized samples start len =>
    simp only [CaptureRing.produce]
    split
    · exact ⟨hspans, hproducing⟩
    · exact ⟨hspans, trivial⟩
  | spanReserved samples start len =>
    simp only [CaptureRing.produce]
    split
    · exact ⟨hspans, hproducing⟩
    · exact ⟨hspans, trivial⟩
  | reserved | booked | taken | cut => exact ⟨hspans, hproducing⟩
  | filled start len =>
    constructor
    · intro span hmem
      rcases List.mem_append.mp hmem with hold | hnew
      · exact hspans span hold
      · rw [List.mem_singleton.mp hnew]
        exact hproducing
    · trivial

theorem Whole.consume (hwhole : Whole s) (wrap : ℕ) : Whole (consume wrap s) := by
  obtain ⟨queue, spans, queued, oldest, dropped, room, next, producing, pending, freshness,
    consuming, received⟩ := s
  cases consuming with
  | holding span limit maxAge now =>
    simp only [CaptureRing.consume]
    split
    · exact ⟨hwhole.spans, hwhole.producing⟩
    · exact ⟨hwhole.spans, hwhole.producing⟩
  | _ => exact ⟨hwhole.spans, hwhole.producing⟩

theorem Whole.take (hwhole : Whole s) (limit maxAge now : ℕ) :
    Whole (take limit maxAge now s) := by
  unfold CaptureRing.take
  split
  · exact ⟨hwhole.spans, hwhole.producing⟩
  · next span spans _ hspans =>
    constructor
    · intro other hmem
      apply hwhole.spans
      rw [hspans]
      exact List.mem_cons_of_mem span hmem
    · exact hwhole.producing
  · exact hwhole

theorem Whole.step {event : Event α} {t : State α} (hwhole : Whole s)
    (hstep : step capacity s event = some t) : Whole t := by
  cases event with
  | push samples start =>
    simp only [CaptureRing.step] at hstep
    split at hstep
    · split at hstep
      · obtain rfl := Option.some.inj hstep
        exact ⟨hwhole.spans, trivial⟩
      · cases hstep
    · cases hstep
  | produce now =>
    obtain rfl := Option.some.inj hstep
    exact hwhole.produce now
  | take limit maxAge now =>
    simp only [CaptureRing.step] at hstep
    split at hstep
    · obtain rfl := Option.some.inj hstep
      exact hwhole.take limit maxAge now
    · cases hstep
  | consume wrap =>
    obtain rfl := Option.some.inj hstep
    exact hwhole.consume wrap

theorem whole_of_run {events : List (Event α)} (hrun : run capacity events = some s) :
    Whole s := by
  induction events using List.reverseRecOn generalizing s with
  | nil =>
    obtain rfl := Option.some.inj hrun
    constructor
    · intro span hmem
      exact nomatch hmem
    · trivial
  | append_singleton events event ih =>
    rw [run, List.foldlM_append] at hrun
    obtain ⟨middle, hmiddle, hlast⟩ := Option.bind_eq_some_iff.mp hrun
    have hstep : CaptureRing.step capacity middle event = some s := by simpa using hlast
    exact (ih hmiddle).step hstep

theorem length_le_total {spans : List Span} (hspans : ∀ span ∈ spans, 0 < span.len) :
    spans.length ≤ total spans := by
  induction spans with
  | nil => exact Nat.le_refl 0
  | cons span spans ih =>
    have hfirst := hspans span (List.mem_cons_self ..)
    have hrest := ih fun other hmem ↦ hspans other (List.mem_cons_of_mem span hmem)
    have hsum : total (span :: spans) = span.len + total spans := by simp [total]
    rw [hsum, List.length_cons]
    omega

/-- Room for samples means slots for them, and fewer spans than the ring has samples. -/
theorem room_of_run {events : List (Event α)} (hrun : run capacity events = some s)
    (hidle : s.producing = .idle) (hpos : 0 < n) (hroom : (n : ℤ) ≤ s.free) :
    s.samples.length + n ≤ capacity ∧ s.spans.length < capacity := by
  obtain ⟨hbooks, hlabels, -⟩ := invariant_of_run events hrun
  have hadvertised := hbooks.room
  have htotal := hlabels.total_eq
  have hspans := length_le_total (whole_of_run hrun).spans
  have hsum : total s.openSpans = total (s.consuming.openSpan s.pending) + total s.spans := by
    unfold State.openSpans
    rw [hidle]
    simp [total]
  rw [hidle] at hadvertised
  simp only [Producing.reservedRoom] at hadvertised
  unfold State.free at hroom
  constructor
  · omega
  · omega

/-! ## Calls of a ring in use -/

theorem produce_counted {samples : List α} {start : ℕ} (hcounted : s.producing = .counted samples start)
    (hsome : min samples.length (s.slots capacity) ≠ 0) (now : ℕ) :
    produce capacity now s =
      { s with producing := .sized samples start (min samples.length (s.slots capacity)) } := by
  unfold produce
  rw [hcounted]
  exact if_neg hsome

theorem produce_sized {samples : List α} {start len : ℕ} (hsized : s.producing = .sized samples start len)
    (hfull : ¬ s.spans.length < min capacity spanCapacity) (now : ℕ) :
    produce capacity now s = { s with producing := .refusing samples } := by
  unfold produce
  rw [hsized]
  exact if_neg hfull

theorem drops_eq_zero {t : State α} {now : ℕ} (hproduce : produce capacity now s = t)
    (hdropped : t.dropped = s.dropped) : drops capacity s (.produce now) = 0 := by
  unfold drops
  dsimp only
  split
  · rfl
  · rw [hproduce, hdropped, Nat.sub_self]

/-- A call that finds the span queue full accepts nothing and drops the whole block. -/
theorem returned_refused {samples : List α} (start : ℕ) (hsamples : samples ≠ [])
    (hslots : s.samples.length < capacity)
    (hfull : ¬ s.spans.length < min capacity spanCapacity) :
    returned capacity (s.call samples start) (List.replicate 9 (.produce 0)) =
      some (0, samples.length) := by
  let counted := produce capacity 0 (s.call samples start)
  have hcounted : counted.producing = .counted samples start := rfl
  have hlen := List.length_pos_iff.mpr hsamples
  have hsome : min samples.length (counted.slots capacity) ≠ 0 := by
    change min samples.length (capacity - s.samples.length) ≠ 0
    omega
  let len := min samples.length (counted.slots capacity)
  let sized : State α := { counted with producing := .sized samples start len }
  have hsized : produce capacity 0 counted = sized := produce_counted hcounted hsome 0
  let refusing : State α := { sized with producing := .refusing samples }
  have hrefusing : produce capacity 0 sized = refusing :=
    @produce_sized α capacity sized samples start len rfl hfull 0
  have hstep (u v : State α) (hproduce : produce capacity 0 u = v) :
      step capacity u (.produce 0) = some v := congrArg some hproduce
  have hkeptCounted : drops capacity counted (.produce 0) = 0 := drops_eq_zero hsized rfl
  have hkeptSized : drops capacity sized (.produce 0) = 0 := drops_eq_zero hrefusing rfl
  calc
    returned capacity (s.call samples start) (List.replicate 9 (.produce 0)) =
        returned capacity counted (List.replicate 8 (.produce 0)) :=
      returned_of_step rfl (fun _ ↦ rfl) rfl
    _ = returned capacity sized (List.replicate 7 (.produce 0)) :=
      returned_of_step (hstep _ _ hsized) (fun _ ↦ rfl) hkeptCounted
    _ = returned capacity refusing (List.replicate 6 (.produce 0)) :=
      returned_of_step (hstep _ _ hrefusing) (fun _ ↦ rfl) hkeptSized
    _ = some (0, drops capacity refusing (.produce 0)) := returned_of_returns rfl rfl
    _ = some (0, samples.length) := by
      have hdropped : drops capacity refusing (.produce 0) = samples.length :=
        Nat.add_sub_cancel_left sized.dropped samples.length
      rw [hdropped]

theorem foldlM_produce (capacity count : ℕ) (s : State α) :
    (List.replicate count (.produce 0)).foldlM (step capacity) s =
      some ((produce capacity 0)^[count] s) := by
  induction count generalizing s with
  | zero => rfl
  | succ count ih => exact ih (produce capacity 0 s)

/-- In every state a run can reach, a push that the advertised room has space for is accepted in full,
whatever the consumer does during the call, exactly when the span queue is not full; in a ring of at
most as many samples it never is. -/
theorem accepts_iff (capacity : ℕ) (events : List (Event α)) (s : State α)
    (hrun : run capacity events = some s) (hidle : s.producing = .idle) (samples : List α)
    (start : ℕ) (hsamples : samples ≠ []) (hroom : (samples.length : ℤ) ≤ s.free) :
    (s.Accepts capacity samples start ↔ s.spans.length < spanCapacity) ∧
      (capacity ≤ spanCapacity → s.Accepts capacity samples start) := by
  have hpos : 0 < samples.length := List.length_pos_iff.mpr hsamples
  obtain ⟨hfits, hfewer⟩ := room_of_run hrun hidle hpos hroom
  have haccepts (hspans : s.spans.length < spanCapacity) : s.Accepts capacity samples start := by
    intro later t hlater henough
    have haccepting : (s.call samples start).Accepting capacity samples.length :=
      ⟨rfl, hfits, lt_min hfewer hspans⟩
    exact haccepting.returned hpos hlater henough
  constructor
  · constructor
    · intro hall
      by_contra hmany
      have hfull : ¬ s.spans.length < min capacity spanCapacity := by
        intro hlt
        exact hmany (hlt.trans_le (min_le_right _ _))
      have hfits' : s.samples.length < capacity := by omega
      have hreturned := hall (List.replicate 9 (.produce 0)) _ (foldlM_produce capacity 9 _)
        (Nat.le_refl 9)
      rw [returned_refused start hsamples hfits' hfull] at hreturned
      exact hpos.ne (congrArg Prod.fst (Option.some.inj hreturned))
    · exact haccepts
  · intro hsmall
    exact haccepts (hfewer.trans_le hsmall)

theorem accepts_iff_fresh :
    ((captureRing 8 : State ℕ).Accepts 8 [1, 2, 3] 0 ↔ 0 < spanCapacity) ∧
      (8 ≤ spanCapacity → (captureRing 8 : State ℕ).Accepts 8 [1, 2, 3] 0) :=
  accepts_iff 8 [] (captureRing 8) rfl rfl [1, 2, 3] 0 (by decide) (by decide)

/-! ## Many small pushes -/

/-- Pushes of one sample each, with nothing consumed between them. -/
def singles (count : ℕ) : List (Event Unit) :=
  (List.range count).flatMap fun k ↦ .push [()] k :: List.replicate 9 (.produce 0)

/-- A ring that holds as many spans as samples. -/
structure Singles (capacity count : ℕ) (s : State Unit) : Prop where
  producing : s.producing = .idle
  next : s.next.all (· ≤ count) = true
  samples : s.samples.length = count
  spans : s.spans.length = count
  room : s.room = capacity - count

theorem Singles.push {count : ℕ} {s : State Unit} (hsingles : Singles capacity count s)
    (hspace : count < min capacity spanCapacity) :
    ∃ t, (.push [()] count :: List.replicate 9 (.produce 0) : List (Event Unit)).foldlM
      (step capacity) s = some t ∧ Singles capacity (count + 1) t := by
  obtain ⟨queue, spans, queued, oldest, dropped, room, next, producing, pending, freshness,
    consuming, received⟩ := s
  obtain ⟨hproducing, hnext, hsamples, hspans, hroom⟩ := hsingles
  dsimp only at hproducing hnext hsamples hspans hroom
  have hcalled : step capacity ⟨queue, spans, queued, oldest, dropped, room, next, producing,
      pending, freshness, consuming, received⟩ (.push [()] count) = some ⟨queue, spans, queued,
      oldest, dropped, room, next, .called [()] count, pending, freshness, consuming,
      received⟩ := by
    rw [hproducing]
    exact if_pos hnext
  have hslots : min [()].length (capacity - queue.length) = 1 := by
    rw [List.length_singleton]
    omega
  rw [List.foldlM_cons, hcalled]
  refine ⟨⟨queue ++ [()], spans ++ [⟨count, 1, 0⟩], queued + 1, if queued = 0 then 0 else oldest,
    dropped + next.elim 0 (count - ·), room - 1, some (count + 1), .idle, pending, freshness,
    consuming, received⟩, ?_, ?_⟩
  · have hone : ¬ min ([()].length) (capacity - queue.length) = 0 := by
      rw [hslots]
      exact one_ne_zero
    have hspan : spans.length < min capacity spanCapacity := by
      rw [hspans]
      exact hspace
    have hfits : 1 ≤ capacity - queue.length := by omega
    rw [Option.bind_eq_bind, Option.bind_some, foldlM_produce]
    simp only [Function.iterate_succ_apply, Function.iterate_zero_apply, produce, State.slots,
      hslots, hspan, hfits, if_true, one_ne_zero, if_false]
    rfl
  · constructor
    · rfl
    · exact decide_eq_true le_rfl
    · rw [List.length_append, hsamples]
      rfl
    · rw [List.length_append, hspans]
      rfl
    · dsimp only
      rw [hroom]
      push_cast
      ring

theorem singles_of_run {count : ℕ} (hcount : count ≤ min capacity spanCapacity) :
    ∃ s, run capacity (singles count) = some s ∧ Singles capacity count s := by
  induction count with
  | zero =>
    refine ⟨captureRing capacity, rfl, ?_⟩
    constructor
    · rfl
    · rfl
    · rfl
    · rfl
    · exact (sub_zero _).symm
  | succ count ih =>
    obtain ⟨s, hrun, hsingles⟩ := ih (Nat.le_of_succ_le hcount)
    obtain ⟨t, hpush, hnext⟩ := hsingles.push hcount
    refine ⟨t, ?_, hnext⟩
    have hsplit : singles (count + 1) =
        singles count ++ (.push [()] count :: List.replicate 9 (.produce 0)) := by
      unfold singles
      rw [List.range_succ, List.flatMap_append, List.flatMap_singleton]
    unfold run at hrun ⊢
    rw [hsplit, List.foldlM_append, hrun]
    exact hpush

/-- After 4096 pushes of one sample there is room for one more, which is refused. -/
theorem room_refused : ∃ s : State Unit, run 4097 (singles 4096) = some s ∧
    s.producing = .idle ∧ s.free = 1 ∧ ¬ s.Accepts 4097 [()] 4096 ∧
      returned 4097 (s.call [()] 4096) (List.replicate 9 (.produce 0)) = some (0, 1) := by
  obtain ⟨s, hrun, hsingles⟩ := singles_of_run (by decide : 4096 ≤ min 4097 spanCapacity)
  have hfull : ¬ s.spans.length < min 4097 spanCapacity := by
    rw [hsingles.spans]
    decide
  have hslots : s.samples.length < 4097 := by
    rw [hsingles.samples]
    decide
  have hrefused := returned_refused 4096 (List.cons_ne_nil () []) hslots hfull
  refine ⟨s, hrun, hsingles.producing, ?_, ?_, hrefused⟩
  · unfold State.free
    rw [hsingles.room]
    rfl
  · intro haccepts
    have haccepted := haccepts _ _ (foldlM_produce 4097 9 _) (Nat.le_refl 9)
    rw [hrefused] at haccepted
    exact nomatch haccepted

end Sdrmm.CaptureRing
