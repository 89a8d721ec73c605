import Mathlib.Tactic

/-!
# The outbox of a browser connection

The four queues of `server/src/ws/outbox.rs` that share one budget of bytes: control packets are kept,
decoded records shed their oldest, audio and visual frames expire, replace each other and give way to
control packets.  A subtraction that would go below zero is no result here, so that a run that has one
had none.

`run_accounts` holds of every run: the counter is the length of what is queued, control packets
are delivered in order behind the frames they wait for, and every decoded record is delivered, queued or
reported lost.
-/

namespace Sdrmm.Outbox

def controlLimit : ℕ := 64
def decodedLimit : ℕ := 1024
def byteLimit : ℕ := 16 * 1024 * 1024
def frameLimit : ℕ := 8 * 1024 * 1024
/-- Ages in milliseconds. -/
def audioAge : ℕ := 100
def mediaAge : ℕ := 250
def audioLimit : ℕ := 256
def mediaLimit : ℕ := 128
def audioOpus : ℕ := 1

inductive Message
  | text (text : String)
  | binary (bytes : List UInt8)
  | ping (bytes : List UInt8)
  | pong (bytes : List UInt8)
  | close

structure Packet where
  message : Message
  queued : ℕ
  key : Option (ℕ × ℕ)
  barrier : Option ℕ
  lossy : Bool

def streamStoppedPrefix : String := "\x7b\"type\":\"StreamStopped\""

/-- `stopped` is the stream that a text names when it is read as a JSON event of a stopped stream. -/
def packet (stopped : String → Option ℕ) (message : Message) (now : ℕ) : Packet where
  message := message
  queued := now
  key :=
    match message with
    | .binary (_ :: kind :: low :: high :: _) => some (kind.toNat, low.toNat + 256 * high.toNat)
    | _ => none
  barrier :=
    match message with
    | .text text => if text.startsWith streamStoppedPrefix then stopped text else none
    | _ => none
  lossy := false

def decodedPacket (stopped : String → Option ℕ) (message : Message) (now : ℕ) : Packet :=
  { packet stopped message now with lossy := true }

namespace Packet

def len (packet : Packet) : ℕ :=
  match packet.message with
  | .text text => text.utf8ByteSize
  | .binary bytes | .ping bytes | .pong bytes => bytes.length
  | .close => 128

/-- A control packet is neither a decoded record nor a frame. -/
def isControl (packet : Packet) : Bool := !packet.lossy && packet.key.isNone

/-- A frame of a stream. -/
def ofStream (packet : Packet) (stream : ℕ) : Bool := packet.key.any fun key ↦ key.2 == stream

end Packet

structure Queue where
  control : List Packet := []
  decoded : List Packet := []
  audio : List Packet := []
  media : List Packet := []
  bytes : ℕ := 0
  dropped : ℕ := 0
  lost : ℕ := 0
  closed : Bool := false

/-- What comes out of the queue. -/
inductive Delivery
  | packet (packet : Packet)
  | decodedLost (count : ℕ)

namespace Queue

/-- Packets are dropped from the front as long as `gone` says so of what is left.  The result is what is
left, the bytes after it and the number of drops. -/
def dropFront (gone : List Packet → ℕ → Bool) : List Packet → ℕ → Option (List Packet × ℕ × ℕ)
  | [], bytes => some ([], bytes, 0)
  | first :: rest, bytes =>
      if gone (first :: rest) bytes then
        if first.len ≤ bytes then
          (dropFront gone rest (bytes - first.len)).map fun (left, bytes, drops) ↦
            (left, bytes, drops + 1)
        else none
      else some (first :: rest, bytes, 0)

/-- The packet in front is too old. -/
def tooOld (now age : ℕ) (packets : List Packet) (_ : ℕ) : Bool :=
  packets.head?.any fun first ↦ age < now - first.queued

def expire (queue : Queue) (now : ℕ) : Option Queue := do
  let (audio, bytes, audioDrops) ← dropFront (tooOld now audioAge) queue.audio queue.bytes
  let (media, bytes, mediaDrops) ← dropFront (tooOld now mediaAge) queue.media bytes
  return { queue with
    audio := audio, media := media, bytes := bytes, dropped := queue.dropped + audioDrops + mediaDrops }

/-- There is no room for `len` bytes. -/
def tooFull (len : ℕ) (_ : List Packet) (bytes : ℕ) : Bool := byteLimit < bytes + len

/-- Frames are given up until there is room for `len` bytes or none is left, visual ones first. -/
def makeRoom (queue : Queue) (len : ℕ) : Option Queue := do
  let (media, bytes, mediaDrops) ← dropFront (tooFull len) queue.media queue.bytes
  let (audio, bytes, audioDrops) ← dropFront (tooFull len) queue.audio bytes
  return { queue with
    media := media, audio := audio, bytes := bytes, dropped := queue.dropped + mediaDrops + audioDrops }

def pushControl (queue : Queue) (packet : Packet) : Option (Bool × Queue) :=
  if controlLimit ≤ queue.control.length ∨ byteLimit < packet.len then
    some (false, { queue with closed := true })
  else do
    let queue ← queue.makeRoom packet.len
    if byteLimit < queue.bytes + packet.len then return (false, { queue with closed := true })
    else
      return (true, { queue with
        bytes := queue.bytes + packet.len, control := queue.control ++ [packet] })

/-- A visual frame takes the place of the one with its key. -/
def replace (queue : Queue) (packet : Packet) : Option Queue :=
  match queue.media.findIdx? fun old ↦ old.key == packet.key with
  | none => some queue
  | some index =>
      match queue.media[index]? with
      | none => some queue
      | some old =>
          if old.len ≤ queue.bytes then
            some { queue with
              media := queue.media.eraseIdx index
              bytes := queue.bytes - old.len
              dropped := queue.dropped + 1 }
          else none

def pushFrame (queue : Queue) (packet : Packet) : Option Queue := do
  let audio := packet.key.any fun key ↦ key.1 == audioOpus
  let queue ← (if audio then some queue else queue.replace packet)
  let held := if audio then queue.audio else queue.media
  let limit := if audio then audioLimit else mediaLimit
  if frameLimit < packet.len ∨ byteLimit < queue.bytes + packet.len ∨ limit ≤ held.length then
    return { queue with dropped := queue.dropped + 1 }
  else if audio then
    return { queue with bytes := queue.bytes + packet.len, audio := queue.audio ++ [packet] }
  else
    return { queue with bytes := queue.bytes + packet.len, media := queue.media ++ [packet] }

/-- There is no room for one more record of `len` bytes. -/
def tooMany (len : ℕ) (decoded : List Packet) (bytes : ℕ) : Bool :=
  decodedLimit ≤ decoded.length || byteLimit < bytes + len

/-- The oldest records are shed, and the new one too if there is still no room for it. -/
def pushLossy (queue : Queue) (packet : Packet) : Option Queue := do
  let (decoded, bytes, shed) ← dropFront (tooMany packet.len) queue.decoded queue.bytes
  if tooMany packet.len decoded bytes then
    return { queue with
      decoded := decoded, bytes := bytes
      dropped := queue.dropped + shed + 1, lost := queue.lost + shed + 1 }
  else
    return { queue with
      decoded := decoded ++ [packet], bytes := bytes + packet.len
      dropped := queue.dropped + shed, lost := queue.lost + shed }

/-- Whether the packet was taken, and the queue after it. -/
def push (queue : Queue) (packet : Packet) : Option (Bool × Queue) :=
  if queue.closed then some (false, queue)
  else do
    let queue ← queue.expire packet.queued
    if packet.lossy then return (true, ← queue.pushLossy packet)
    else if packet.key.isNone then queue.pushControl packet
    else return (true, ← queue.pushFrame packet)

/-- Whether a control packet has to wait for frames of the stream it ends. -/
def waits (queue : Queue) (packet : Packet) : Bool :=
  packet.barrier.any fun stream ↦ (queue.audio ++ queue.media).any fun frame ↦ frame.ofStream stream

/-- The queue without the packet that is next. -/
def takeNext (queue : Queue) : Option (Packet × Queue) :=
  match queue.control.findIdx? fun packet ↦ !queue.waits packet with
  | some index =>
      (queue.control[index]?).map fun packet ↦
        (packet, { queue with control := queue.control.eraseIdx index })
  | none =>
      match queue.audio, queue.decoded, queue.media with
      | packet :: audio, _, _ => some (packet, { queue with audio := audio })
      | [], packet :: decoded, _ => some (packet, { queue with decoded := decoded })
      | [], [], packet :: media => some (packet, { queue with media := media })
      | [], [], [] => none

def pop (queue : Queue) (now : ℕ) : Option (Queue × Option Delivery) := do
  let queue ← queue.expire now
  if 0 < queue.lost then return ({ queue with lost := 0 }, some (.decodedLost queue.lost))
  else
    match queue.takeNext with
    | none => return (queue, none)
    | some (packet, queue) =>
        if packet.len ≤ queue.bytes then
          return ({ queue with bytes := queue.bytes - packet.len }, some (.packet packet))
        else none

end Queue

/-! ## Runs -/

inductive Op
  | push (packet : Packet)
  | pop (now : ℕ)

/-- A queue with what was pushed to it, what of this it took and what it delivered. -/
structure History where
  queue : Queue := {}
  pushed : List Packet := []
  taken : List Packet := []
  delivered : List Delivery := []

namespace History

def step (history : History) : Op → Option History
  | .push packet => do
      let (took, queue) ← history.queue.push packet
      return { history with
        queue := queue
        pushed := history.pushed ++ [packet]
        taken := history.taken ++ if took then [packet] else [] }
  | .pop now => do
      let (queue, out) ← history.queue.pop now
      return { history with queue := queue, delivered := history.delivered ++ out.toList }

def run (history : History) (ops : List Op) : Option History := ops.foldlM step history

end History

/-- The bytes of some packets. -/
def lens (packets : List Packet) : ℕ := (packets.map Packet.len).sum

def Queue.total (queue : Queue) : ℕ :=
  lens queue.control + lens queue.decoded + lens queue.audio + lens queue.media

def deliveredPackets (delivered : List Delivery) : List Packet :=
  delivered.filterMap fun delivery ↦
    match delivery with
    | .packet packet => some packet
    | .decodedLost _ => none

def reportedLost (delivered : List Delivery) : ℕ :=
  (delivered.map fun delivery ↦
    match delivery with
    | .packet _ => 0
    | .decodedLost count => count).sum

/-- A control packet that waits for no frames. -/
def Packet.isPlain (packet : Packet) : Bool := packet.isControl && packet.barrier.isNone

/-- What holds of a queue and its history. -/
structure Accounts (history : History) : Prop where
  /-- The counter is the length of what is queued and stays in the budget. -/
  bytes : history.queue.bytes = history.queue.total
  budget : history.queue.bytes ≤ byteLimit
  /-- An open queue has taken everything, and has dropped no control packet of it. -/
  takes : history.queue.closed = false → history.taken = history.pushed
  control : (history.taken.filter Packet.isControl).Perm
    ((deliveredPackets history.delivered).filter Packet.isControl ++ history.queue.control)
  order : history.taken.filter Packet.isPlain =
    (deliveredPackets history.delivered).filter Packet.isPlain ++
      history.queue.control.filter Packet.isPlain
  /-- The end of a stream comes out only when no frame of the stream is queued. -/
  barrier : ∀ now queue packet stream, history.queue.pop now = some (queue, some (.packet packet)) →
    packet.isControl → packet.barrier = some stream →
      ∀ frame ∈ queue.audio ++ queue.media, frame.ofStream stream = false
  decoded : (history.taken.filter Packet.lossy).length =
    ((deliveredPackets history.delivered).filter Packet.lossy).length +
      history.queue.decoded.length + reportedLost history.delivered + history.queue.lost

/-! ## The queues -/

section Lens

@[simp] theorem lens_nil : lens [] = 0 := rfl

@[simp] theorem lens_cons (packet : Packet) (packets : List Packet) :
    lens (packet :: packets) = packet.len + lens packets := by
  rw [lens, List.map_cons, List.sum_cons, lens]

@[simp] theorem lens_append (a b : List Packet) : lens (a ++ b) = lens a + lens b := by
  rw [lens, List.map_append, List.sum_append, lens, lens]

theorem lens_eraseIdx {packets : List Packet} {index : ℕ} {packet : Packet}
    (hpacket : packets[index]? = some packet) :
    lens packets = packet.len + lens (packets.eraseIdx index) := by
  induction packets generalizing index with
  | nil => cases hpacket
  | cons first rest ih =>
    cases index with
    | zero =>
      obtain rfl := Option.some.inj hpacket
      rw [List.eraseIdx_cons_zero, lens_cons]
    | succ index =>
      rw [List.eraseIdx_cons_succ, lens_cons, lens_cons, ih hpacket]
      omega

end Lens

namespace Queue

theorem dropFront_spec (gone : List Packet → ℕ → Bool) {packets : List Packet} {bytes : ℕ}
    (hbytes : lens packets ≤ bytes) :
    ∃ front left, packets = front ++ left ∧
      dropFront gone packets bytes = some (left, bytes - lens front, front.length) ∧
      (gone left (bytes - lens front) = false ∨ left = []) := by
  induction packets generalizing bytes with
  | nil => exact ⟨[], [], rfl, rfl, Or.inr rfl⟩
  | cons first rest ih =>
    rw [lens_cons] at hbytes
    cases hgone : gone (first :: rest) bytes with
    | false => exact ⟨[], first :: rest, rfl, by simp [dropFront, hgone], Or.inl hgone⟩
    | true =>
      obtain ⟨front, left, hsplit, hdrop, hstop⟩ := ih (show lens rest ≤ bytes - first.len by omega)
      refine ⟨first :: front, left, by rw [hsplit, List.cons_append], ?_, ?_⟩
      · rw [dropFront, if_pos hgone, if_pos (by omega), hdrop, lens_cons, ← Nat.sub_sub]
        rfl
      · rwa [lens_cons, ← Nat.sub_sub]

/-- What the queues hold and how their counter stands. -/
structure Ok (queue : Queue) : Prop where
  bytes : queue.bytes = queue.total
  budget : queue.bytes ≤ byteLimit
  control : ∀ packet ∈ queue.control, packet.isControl
  decoded : ∀ packet ∈ queue.decoded, packet.lossy
  frames : ∀ packet ∈ queue.audio ++ queue.media, !packet.lossy && packet.key.isSome

/-- Nothing but frames is gone. -/
structure Kept (before after : Queue) : Prop where
  control : after.control = before.control
  decoded : after.decoded = before.decoded
  lost : after.lost = before.lost
  closed : after.closed = before.closed

theorem Kept.trans {a b c : Queue} (hab : Kept a b) (hbc : Kept b c) : Kept a c where
  control := hbc.control.trans hab.control
  decoded := hbc.decoded.trans hab.decoded
  lost := hbc.lost.trans hab.lost
  closed := hbc.closed.trans hab.closed

variable {queue : Queue}

/-- Frames may leave a queue together with their bytes. -/
theorem Ok.shrink (hok : queue.Ok) {audio media : List Packet} {gone bytes : ℕ} (dropped : ℕ)
    (hsubset : ∀ packet ∈ audio ++ media, packet ∈ queue.audio ++ queue.media)
    (hlens : lens queue.audio + lens queue.media = gone + (lens audio + lens media))
    (hbytes : bytes = queue.bytes - gone) :
    Ok { queue with audio := audio, media := media, bytes := bytes, dropped := dropped } ∧
      Kept queue { queue with audio := audio, media := media, bytes := bytes, dropped := dropped } := by
  refine ⟨?_, rfl, rfl, rfl, rfl⟩
  have htotal := hok.bytes
  have hbudget := hok.budget
  rw [total] at htotal
  constructor
  · simp only [total]
    omega
  · simp only
    omega
  · exact hok.control
  · exact hok.decoded
  · exact fun packet hmem ↦ hok.frames packet (hsubset packet hmem)

theorem expire_spec (hok : queue.Ok) (now : ℕ) :
    ∃ after, queue.expire now = some after ∧ after.Ok ∧ Kept queue after := by
  have htotal := hok.bytes
  rw [total] at htotal
  obtain ⟨audioFront, audio, haudio, hfirst, -⟩ :=
    dropFront_spec (tooOld now audioAge) (show lens queue.audio ≤ queue.bytes by omega)
  have haudioLens : lens queue.audio = lens audioFront + lens audio := by rw [haudio, lens_append]
  obtain ⟨mediaFront, media, hmedia, hsecond, -⟩ :=
    dropFront_spec (tooOld now mediaAge)
      (show lens queue.media ≤ queue.bytes - lens audioFront by omega)
  have hmediaLens : lens queue.media = lens mediaFront + lens media := by rw [hmedia, lens_append]
  refine ⟨_, by simp only [expire, hfirst, Option.bind_eq_bind, Option.bind_some, hsecond]; rfl, ?_⟩
  have hgone : lens queue.audio + lens queue.media =
      lens audioFront + lens mediaFront + (lens audio + lens media) := by omega
  apply hok.shrink _ _ hgone (by omega)
  intro packet hmem
  rw [haudio, hmedia]
  simp only [List.mem_append] at hmem ⊢
  tauto

theorem makeRoom_spec (hok : queue.Ok) (len : ℕ) :
    ∃ after, queue.makeRoom len = some after ∧ after.Ok ∧ Kept queue after := by
  have htotal := hok.bytes
  rw [total] at htotal
  obtain ⟨mediaFront, media, hmedia, hfirst, -⟩ :=
    dropFront_spec (tooFull len) (show lens queue.media ≤ queue.bytes by omega)
  have hmediaLens : lens queue.media = lens mediaFront + lens media := by rw [hmedia, lens_append]
  obtain ⟨audioFront, audio, haudio, hsecond, -⟩ :=
    dropFront_spec (tooFull len) (show lens queue.audio ≤ queue.bytes - lens mediaFront by omega)
  have haudioLens : lens queue.audio = lens audioFront + lens audio := by rw [haudio, lens_append]
  refine ⟨_, by simp only [makeRoom, hfirst, Option.bind_eq_bind, Option.bind_some, hsecond]; rfl, ?_⟩
  have hgone : lens queue.audio + lens queue.media =
      lens audioFront + lens mediaFront + (lens audio + lens media) := by omega
  apply hok.shrink _ _ hgone (by omega)
  intro packet hmem
  rw [haudio, hmedia]
  simp only [List.mem_append] at hmem ⊢
  tauto

theorem replace_spec (hok : queue.Ok) (packet : Packet) :
    ∃ after, queue.replace packet = some after ∧ after.Ok ∧ Kept queue after := by
  have hsame : ∃ after, some queue = some after ∧ after.Ok ∧ Kept queue after :=
    ⟨queue, rfl, hok, rfl, rfl, rfl, rfl⟩
  rw [replace]
  cases queue.media.findIdx? fun old ↦ old.key == packet.key with
  | none => exact hsame
  | some index =>
    simp only
    cases hold : queue.media[index]? with
    | none => exact hsame
    | some old =>
      have hlens := lens_eraseIdx hold
      have htotal := hok.bytes
      rw [total] at htotal
      simp only
      rw [if_pos (by omega)]
      have hgone : lens queue.audio + lens queue.media =
          old.len + (lens queue.audio + lens (queue.media.eraseIdx index)) := by omega
      refine ⟨_, rfl, hok.shrink _ ?_ hgone rfl⟩
      intro frame hmem
      rcases List.mem_append.mp hmem with haudio | hmedia
      · exact List.mem_append_left _ haudio
      · exact List.mem_append_right _ (List.mem_of_mem_eraseIdx hmedia)

/-! ## Pushing -/

/-- What a push does to the queues that matter for the accounts. -/
inductive Pushed (before : Queue) (packet : Packet) : Bool → Queue → Prop
  | refused {after : Queue} (hclosed : after.closed = true) (hcontrol : after.control = before.control)
      (hdecoded : after.decoded = before.decoded) (hlost : after.lost = before.lost) :
      Pushed before packet false after
  | control {after : Queue} (hkind : packet.isControl) (hopen : before.closed = false)
      (hcontrol : after.control = before.control ++ [packet])
      (hdecoded : after.decoded = before.decoded) (hlost : after.lost = before.lost) :
      Pushed before packet true after
  | lossy {after : Queue} (hkind : packet.lossy) (hopen : before.closed = false)
      (hcontrol : after.control = before.control)
      (hcount : after.decoded.length + after.lost = before.decoded.length + before.lost + 1) :
      Pushed before packet true after
  | frame {after : Queue} (hkind : !packet.lossy && packet.key.isSome) (hopen : before.closed = false)
      (hkept : Kept before after) : Pushed before packet true after

theorem pushControl_spec (hok : queue.Ok) (hopen : queue.closed = false) {packet : Packet}
    (hkind : packet.isControl) :
    ∃ took after, queue.pushControl packet = some (took, after) ∧ after.Ok ∧
      Pushed queue packet took after := by
  rw [pushControl]
  split_ifs with hlimit
  · exact ⟨false, _, rfl, ⟨hok.bytes, hok.budget, hok.control, hok.decoded, hok.frames⟩,
      .refused rfl rfl rfl rfl⟩
  · obtain ⟨room, hroom, hroomOk, hkept⟩ := makeRoom_spec hok packet.len
    rw [hroom, Option.bind_eq_bind, Option.bind_some]
    split_ifs with hfull
    · exact ⟨false, _, rfl, ⟨hroomOk.bytes, hroomOk.budget, hroomOk.control, hroomOk.decoded,
        hroomOk.frames⟩, .refused rfl hkept.control hkept.decoded hkept.lost⟩
    · refine ⟨true, _, rfl, ?_, .control hkind hopen ?_ hkept.decoded hkept.lost⟩
      · constructor
        · simp only [total, lens_append, lens_cons, lens_nil]
          have := hroomOk.bytes
          rw [total] at this
          omega
        · simp only
          omega
        · intro other hmem
          rcases List.mem_append.mp hmem with hold | hnew
          · exact hroomOk.control other hold
          · rw [List.mem_singleton.mp hnew]
            exact hkind
        · exact hroomOk.decoded
        · exact hroomOk.frames
      · simp only [hkept.control]

/-- A frame joins a queue that has room for it. -/
theorem Ok.grow (hok : queue.Ok) {packet : Packet} (hkind : !packet.lossy && packet.key.isSome)
    {audio media : List Packet}
    (hmem : ∀ frame ∈ audio ++ media, frame = packet ∨ frame ∈ queue.audio ++ queue.media)
    (hlens : lens audio + lens media = lens queue.audio + lens queue.media + packet.len)
    (hroom : queue.bytes + packet.len ≤ byteLimit) :
    Ok { queue with audio := audio, media := media, bytes := queue.bytes + packet.len } := by
  have htotal := hok.bytes
  rw [total] at htotal
  constructor
  · simp only [total]
    omega
  · exact hroom
  · exact hok.control
  · exact hok.decoded
  · intro frame hframe
    rcases hmem frame hframe with rfl | hold
    · exact hkind
    · exact hok.frames frame hold

theorem pushFrame_spec (hok : queue.Ok) (hopen : queue.closed = false) {packet : Packet}
    (hkind : !packet.lossy && packet.key.isSome) :
    ∃ after, queue.pushFrame packet = some after ∧ after.Ok ∧ Pushed queue packet true after := by
  have hreplaced : ∃ after, (if packet.key.any (fun key ↦ key.1 == audioOpus) then some queue
      else queue.replace packet) = some after ∧ after.Ok ∧ Kept queue after := by
    split_ifs
    · exact ⟨queue, rfl, hok, rfl, rfl, rfl, rfl⟩
    · exact replace_spec hok packet
  obtain ⟨room, hroom, hroomOk, hkept⟩ := hreplaced
  -- Whichever branch is taken, only the frames and the counters differ from `room`.
  have hpushed : ∀ audio media bytes dropped, Pushed queue packet true
      { room with audio := audio, media := media, bytes := bytes, dropped := dropped } :=
    fun _ _ _ _ ↦ .frame hkind hopen ⟨hkept.control, hkept.decoded, hkept.lost, hkept.closed⟩
  rw [pushFrame]
  simp only [hroom, Option.bind_eq_bind, Option.bind_some]
  generalize (packet.key.any fun key ↦ key.1 == audioOpus) = audio
  have hdropped : ∃ after, some { room with dropped := room.dropped + 1 } = some after ∧
      after.Ok ∧ Pushed queue packet true after :=
    ⟨_, rfl, ⟨hroomOk.bytes, hroomOk.budget, hroomOk.control, hroomOk.decoded, hroomOk.frames⟩,
      hpushed _ _ _ _⟩
  cases audio with
  | true =>
    simp only [if_true]
    split_ifs with hfull
    · exact hdropped
    · refine ⟨_, rfl, hroomOk.grow hkind ?_ ?_ (by omega), hpushed _ _ _ _⟩
      · intro frame hmem
        simp only [List.mem_append, List.mem_singleton] at hmem ⊢
        tauto
      · simp only [lens_append, lens_cons, lens_nil]
        omega
  | false =>
    simp only [Bool.false_eq_true, if_false]
    split_ifs with hfull
    · exact hdropped
    · refine ⟨_, rfl, hroomOk.grow hkind ?_ ?_ (by omega), hpushed _ _ _ _⟩
      · intro frame hmem
        simp only [List.mem_append, List.mem_singleton] at hmem ⊢
        tauto
      · simp only [lens_append, lens_cons, lens_nil]
        omega

theorem pushLossy_spec (hok : queue.Ok) (hopen : queue.closed = false) {packet : Packet}
    (hkind : packet.lossy) :
    ∃ after, queue.pushLossy packet = some after ∧ after.Ok ∧ Pushed queue packet true after := by
  have htotal := hok.bytes
  have hbudget := hok.budget
  rw [total] at htotal
  obtain ⟨front, decoded, hsplit, hdrop, -⟩ :=
    dropFront_spec (tooMany packet.len) (show lens queue.decoded ≤ queue.bytes by omega)
  have hlens : lens queue.decoded = lens front + lens decoded := by rw [hsplit, lens_append]
  have hlength : queue.decoded.length = front.length + decoded.length := by
    rw [hsplit, List.length_append]
  have hold : ∀ other ∈ decoded, other.lossy := fun other hmem ↦
    hok.decoded other (by rw [hsplit]; exact List.mem_append_right _ hmem)
  rw [pushLossy, hdrop]
  simp only [Option.bind_eq_bind, Option.bind_some]
  split_ifs with hfull
  · refine ⟨_, rfl, ?_, .lossy hkind hopen rfl ?_⟩
    · constructor
      · simp only [total]
        omega
      · simp only
        omega
      · exact hok.control
      · exact hold
      · exact hok.frames
    · simp only
      omega
  · rw [tooMany, Bool.or_eq_true, decide_eq_true_iff, decide_eq_true_iff] at hfull
    refine ⟨_, rfl, ?_, .lossy hkind hopen rfl ?_⟩
    · constructor
      · simp only [total, lens_append, lens_cons, lens_nil]
        omega
      · simp only
        omega
      · exact hok.control
      · intro other hmem
        rcases List.mem_append.mp hmem with hmem | hmem
        · exact hold other hmem
        · rw [List.mem_singleton.mp hmem]
          exact hkind
      · exact hok.frames
    · simp only [List.length_append, List.length_singleton]
      omega

theorem Pushed.of_kept {before room after : Queue} {packet : Packet} {took : Bool}
    (hkept : Kept before room) (hpushed : Pushed room packet took after) :
    Pushed before packet took after := by
  cases hpushed with
  | refused hclosed hcontrol hdecoded hlost =>
    exact .refused hclosed (hcontrol.trans hkept.control) (hdecoded.trans hkept.decoded)
      (hlost.trans hkept.lost)
  | control hkind hopen hcontrol hdecoded hlost =>
    exact .control hkind (hkept.closed.symm.trans hopen) (by rw [hcontrol, hkept.control])
      (hdecoded.trans hkept.decoded) (hlost.trans hkept.lost)
  | lossy hkind hopen hcontrol hcount =>
    exact .lossy hkind (hkept.closed.symm.trans hopen) (hcontrol.trans hkept.control)
      (by rw [hcount, hkept.decoded, hkept.lost])
  | frame hkind hopen hafter =>
    exact .frame hkind (hkept.closed.symm.trans hopen) (hkept.trans hafter)

theorem push_spec (hok : queue.Ok) (packet : Packet) :
    ∃ took after, queue.push packet = some (took, after) ∧ after.Ok ∧
      Pushed queue packet took after := by
  rw [push]
  cases hclosed : queue.closed with
  | true => exact ⟨false, queue, rfl, hok, .refused hclosed rfl rfl rfl⟩
  | false =>
    obtain ⟨room, hroom, hroomOk, hkept⟩ := expire_spec hok packet.queued
    have hopen := hkept.closed.trans hclosed
    rw [if_neg (by decide), hroom, Option.bind_eq_bind, Option.bind_some]
    split_ifs with hlossy hkey
    · obtain ⟨after, hafter, hafterOk, hpushed⟩ := pushLossy_spec hroomOk hopen hlossy
      rw [hafter]
      exact ⟨true, after, rfl, hafterOk, hpushed.of_kept hkept⟩
    · have hkind : packet.isControl := by
        rw [Bool.not_eq_true] at hlossy
        rw [Packet.isControl, hkey, hlossy]
        rfl
      obtain ⟨took, after, hafter, hafterOk, hpushed⟩ := pushControl_spec hroomOk hopen hkind
      rw [hafter]
      exact ⟨took, after, rfl, hafterOk, hpushed.of_kept hkept⟩
    · have hkind : !packet.lossy && packet.key.isSome := by
        rw [Bool.not_eq_true] at hlossy hkey
        rw [hlossy, ← Option.not_isNone, hkey]
        rfl
      obtain ⟨after, hafter, hafterOk, hpushed⟩ := pushFrame_spec hroomOk hopen hkind
      rw [hafter]
      exact ⟨true, after, rfl, hafterOk, hpushed.of_kept hkept⟩

/-! ## Popping -/

/-- What a pop does to the queues that matter for the accounts. -/
inductive Popped (before : Queue) : Option Delivery → Queue → Prop
  | empty {after : Queue} (hkept : Kept before after) : Popped before none after
  | report {after : Queue} (hcontrol : after.control = before.control)
      (hdecoded : after.decoded = before.decoded) (hclosed : after.closed = before.closed)
      (hlost : after.lost = 0) : Popped before (some (.decodedLost before.lost)) after
  | control {after : Queue} {packet : Packet} (ahead behind : List Packet)
      (hbefore : before.control = ahead ++ packet :: behind) (hafter : after.control = ahead ++ behind)
      (hahead : ∀ other ∈ ahead, other.isPlain = false)
      (hbarrier : ∀ stream, packet.barrier = some stream →
        ∀ frame ∈ after.audio ++ after.media, frame.ofStream stream = false)
      (hdecoded : after.decoded = before.decoded) (hlost : after.lost = before.lost)
      (hclosed : after.closed = before.closed) : Popped before (some (.packet packet)) after
  | lossy {after : Queue} {packet : Packet} (hcontrol : after.control = before.control)
      (hdecoded : before.decoded = packet :: after.decoded) (hlost : after.lost = before.lost)
      (hclosed : after.closed = before.closed) : Popped before (some (.packet packet)) after
  | frame {after : Queue} {packet : Packet} (hkind : !packet.lossy && packet.key.isSome)
      (hkept : Kept before after) : Popped before (some (.packet packet)) after

theorem Popped.of_kept {before room after : Queue} {out : Option Delivery}
    (hkept : Kept before room) (hpopped : Popped room out after) : Popped before out after := by
  cases hpopped with
  | empty hafter => exact .empty (hkept.trans hafter)
  | report hcontrol hdecoded hclosed hlost =>
    rw [hkept.lost]
    exact .report (hcontrol.trans hkept.control) (hdecoded.trans hkept.decoded)
      (hclosed.trans hkept.closed) hlost
  | control ahead behind hbefore hafter hahead hbarrier hdecoded hlost hclosed =>
    exact .control ahead behind (hkept.control.symm.trans hbefore) hafter hahead hbarrier
      (hdecoded.trans hkept.decoded) (hlost.trans hkept.lost) (hclosed.trans hkept.closed)
  | lossy hcontrol hdecoded hlost hclosed =>
    exact .lossy (hcontrol.trans hkept.control) (hkept.decoded.symm.trans hdecoded)
      (hlost.trans hkept.lost) (hclosed.trans hkept.closed)
  | frame hkind hafter => exact .frame hkind (hkept.trans hafter)

/-- The next control packet: those ahead of it wait. -/
theorem control_split {index : ℕ}
    (hindex : (queue.control.findIdx? fun packet ↦ !queue.waits packet) = some index) :
    ∃ ahead packet behind, queue.control = ahead ++ packet :: behind ∧
      queue.control[index]? = some packet ∧ queue.control.eraseIdx index = ahead ++ behind ∧
      queue.waits packet = false ∧ ∀ other ∈ ahead, queue.waits other = true := by
  obtain ⟨hlt, hready, hahead⟩ := List.findIdx?_eq_some_iff_getElem.mp hindex
  refine ⟨queue.control.take index, queue.control[index], queue.control.drop (index + 1), ?_,
    List.getElem?_eq_getElem hlt, List.eraseIdx_eq_take_drop_succ .., by simpa using hready, ?_⟩
  · rw [List.getElem_cons_drop, List.take_append_drop]
  · intro other hmem
    obtain ⟨position, hposition, rfl⟩ := List.mem_take_iff_getElem.mp hmem
    have := hahead position (by omega)
    simpa using this

theorem waits_barrier {packet : Packet} (hready : queue.waits packet = false) {stream : ℕ}
    (hbarrier : packet.barrier = some stream) :
    ∀ frame ∈ queue.audio ++ queue.media, frame.ofStream stream = false := by
  rw [waits, hbarrier, Option.any_some, List.any_eq_false] at hready
  intro frame hmem
  exact Bool.not_eq_true _ ▸ hready frame hmem

theorem not_isPlain_of_waits {packet : Packet} (hwaits : queue.waits packet = true) :
    packet.isPlain = false := by
  cases hbarrier : packet.barrier with
  | none => rw [waits, hbarrier] at hwaits; cases hwaits
  | some stream => rw [Packet.isPlain, hbarrier, Option.isNone_some, Bool.and_false]

/-- The queues without the next packet: its bytes are still counted. -/
theorem takeNext_spec (hok : queue.Ok) {packet : Packet} {rest : Queue}
    (hnext : queue.takeNext = some (packet, rest)) :
    packet.len ≤ rest.bytes ∧ Ok { rest with bytes := rest.bytes - packet.len } ∧
      Popped queue (some (.packet packet)) { rest with bytes := rest.bytes - packet.len } := by
  have htotal := hok.bytes
  have hbudget := hok.budget
  rw [total] at htotal
  rw [takeNext] at hnext
  split at hnext
  · rename_i index hindex
    obtain ⟨ahead, first, behind, hsplit, hfirst, herase, hready, hahead⟩ := control_split hindex
    rw [hfirst, Option.map_some, herase] at hnext
    obtain ⟨rfl, rfl⟩ := Prod.mk.inj (Option.some.inj hnext)
    have hlens : lens queue.control = first.len + lens (ahead ++ behind) := by
      rw [hsplit, lens_append, lens_cons, lens_append]
      omega
    refine ⟨by simp only; omega, ?_, .control ahead behind hsplit rfl
      (fun other hmem ↦ not_isPlain_of_waits (hahead other hmem))
      (fun stream hbarrier ↦ waits_barrier hready hbarrier) rfl rfl rfl⟩
    constructor
    · simp only [total]
      omega
    · simp only
      omega
    · intro other hmem
      apply hok.control
      rw [hsplit]
      simp only [List.mem_append, List.mem_cons] at hmem ⊢
      tauto
    · exact hok.decoded
    · exact hok.frames
  · split at hnext
    · rename_i first audio haudio
      obtain ⟨rfl, rfl⟩ := Prod.mk.inj (Option.some.inj hnext)
      have hlens : lens queue.audio = first.len + lens audio := by rw [haudio, lens_cons]
      have hgone : lens queue.audio + lens queue.media = first.len + (lens audio + lens queue.media) := by
        omega
      obtain ⟨hafter, hkept⟩ := hok.shrink queue.dropped (fun frame hmem ↦ by
        rw [haudio, List.cons_append]
        exact List.mem_cons_of_mem _ hmem) hgone rfl
      refine ⟨by simp only; omega, hafter, .frame (hok.frames _ ?_) hkept⟩
      rw [haudio]
      exact List.mem_cons_self
    · rename_i first decoded haudio hdecoded
      obtain ⟨rfl, rfl⟩ := Prod.mk.inj (Option.some.inj hnext)
      have hlens : lens queue.decoded = first.len + lens decoded := by rw [hdecoded, lens_cons]
      refine ⟨by simp only; omega, ?_, .lossy rfl hdecoded rfl rfl⟩
      constructor
      · simp only [total]
        omega
      · simp only
        omega
      · exact hok.control
      · exact fun other hmem ↦ hok.decoded other (hdecoded ▸ List.mem_cons_of_mem _ hmem)
      · exact hok.frames
    · rename_i first media haudio hdecoded hmedia
      obtain ⟨rfl, rfl⟩ := Prod.mk.inj (Option.some.inj hnext)
      have hlens : lens queue.media = first.len + lens media := by rw [hmedia, lens_cons]
      have hgone : lens queue.audio + lens queue.media = first.len + (lens queue.audio + lens media) := by
        omega
      obtain ⟨hafter, hkept⟩ := hok.shrink queue.dropped (fun frame hmem ↦ by
        rw [hmedia]
        rcases List.mem_append.mp hmem with hold | hold
        · exact List.mem_append_left _ hold
        · exact List.mem_append_right _ (List.mem_cons_of_mem _ hold)) hgone rfl
      refine ⟨by simp only; omega, hafter, .frame (hok.frames _ ?_) hkept⟩
      rw [hmedia]
      exact List.mem_append_right _ List.mem_cons_self
    · cases hnext

theorem pop_spec (hok : queue.Ok) (now : ℕ) :
    ∃ after out, queue.pop now = some (after, out) ∧ after.Ok ∧ Popped queue out after := by
  obtain ⟨room, hroom, hroomOk, hkept⟩ := expire_spec hok now
  rw [pop, hroom, Option.bind_eq_bind, Option.bind_some]
  split_ifs with hlost
  · refine ⟨_, _, rfl, ?_, Popped.of_kept hkept (.report rfl rfl rfl rfl)⟩
    exact ⟨hroomOk.bytes, hroomOk.budget, hroomOk.control, hroomOk.decoded, hroomOk.frames⟩
  · cases hnext : room.takeNext with
    | none => exact ⟨room, none, rfl, hroomOk, .empty hkept⟩
    | some next =>
      obtain ⟨hlen, hafter, hpopped⟩ := takeNext_spec hroomOk hnext
      simp only [if_pos hlen]
      exact ⟨_, _, rfl, hafter, hpopped.of_kept hkept⟩

end Queue

/-! ## The accounts -/

namespace Packet

variable {packet : Packet}

theorem not_lossy_of_isControl (hkind : packet.isControl) : packet.lossy = false := by
  rw [isControl, Bool.and_eq_true, Bool.not_eq_true'] at hkind
  exact hkind.1

theorem not_isControl_of_lossy (hkind : packet.lossy) : packet.isControl = false := by
  rw [isControl, hkind]
  rfl

theorem kind_of_frame (hkind : !packet.lossy && packet.key.isSome) :
    packet.lossy = false ∧ packet.isControl = false := by
  rw [Bool.and_eq_true, Bool.not_eq_true'] at hkind
  rw [isControl, ← Option.not_isSome, hkind.2]
  exact ⟨hkind.1, Bool.and_false _⟩

theorem not_isPlain (hkind : packet.isControl = false) : packet.isPlain = false := by
  rw [isPlain, hkind]
  rfl

end Packet

section Delivered

variable (delivered : List Delivery)

theorem deliveredPackets_packet (packet : Packet) :
    deliveredPackets (delivered ++ [.packet packet]) = deliveredPackets delivered ++ [packet] := by
  rw [deliveredPackets, List.filterMap_append]
  rfl

theorem deliveredPackets_report (count : ℕ) :
    deliveredPackets (delivered ++ [.decodedLost count]) = deliveredPackets delivered := by
  rw [deliveredPackets, List.filterMap_append]
  exact List.append_nil _

theorem reportedLost_packet (packet : Packet) :
    reportedLost (delivered ++ [.packet packet]) = reportedLost delivered := by
  rw [reportedLost, List.map_append, List.sum_append]
  rfl

theorem reportedLost_report (count : ℕ) :
    reportedLost (delivered ++ [.decodedLost count]) = reportedLost delivered + count := by
  rw [reportedLost, List.map_append, List.sum_append]
  rfl

end Delivered

namespace History

/-- What a step keeps. -/
structure Books (history : History) : Prop where
  ok : history.queue.Ok
  takes : history.queue.closed = false → history.taken = history.pushed
  control : (history.taken.filter Packet.isControl).Perm
    ((deliveredPackets history.delivered).filter Packet.isControl ++ history.queue.control)
  order : history.taken.filter Packet.isPlain =
    (deliveredPackets history.delivered).filter Packet.isPlain ++
      history.queue.control.filter Packet.isPlain
  decoded : (history.taken.filter Packet.lossy).length =
    ((deliveredPackets history.delivered).filter Packet.lossy).length +
      history.queue.decoded.length + reportedLost history.delivered + history.queue.lost

theorem books_empty : Books {} := by
  constructor
  · constructor
    · rfl
    · exact Nat.zero_le _
    all_goals exact fun _ hmem ↦ absurd hmem List.not_mem_nil
  · exact fun _ ↦ rfl
  · exact .nil
  · rfl
  · rfl

variable {history : History}

theorem filter_append_singleton_of {p : Packet → Bool} {packet : Packet} (packets : List Packet)
    (hpacket : p packet = false) : (packets ++ [packet]).filter p = packets.filter p := by
  rw [List.filter_append, List.filter_singleton, hpacket, cond_false, List.append_nil]

theorem Books.push (hbooks : history.Books) {packet : Packet} {took : Bool} {queue : Queue}
    (hok : queue.Ok) (hpushed : Queue.Pushed history.queue packet took queue) :
    Books { history with
      queue := queue
      pushed := history.pushed ++ [packet]
      taken := history.taken ++ if took then [packet] else [] } := by
  cases hpushed with
  | refused hclosed hcontrol hdecoded hlost =>
    have htaken : history.taken ++ (if false then [packet] else []) = history.taken :=
      List.append_nil _
    rw [htaken]
    refine ⟨hok, fun hopen ↦ ?_, ?_, ?_, ?_⟩
    · rw [hclosed] at hopen
      cases hopen
    · simpa only [hcontrol] using hbooks.control
    · simpa only [hcontrol] using hbooks.order
    · simpa only [hdecoded, hlost] using hbooks.decoded
  | control hkind hopen hcontrol hdecoded hlost =>
    have hlossy := Packet.not_lossy_of_isControl hkind
    refine ⟨hok, fun _ ↦ ?_, ?_, ?_, ?_⟩
    · simp only [if_true, hbooks.takes hopen]
    · simp only [if_true, hcontrol, ← List.append_assoc]
      rw [List.filter_append, List.filter_singleton, hkind]
      exact hbooks.control.append_right [packet]
    · simp only [if_true, hcontrol, List.filter_append, ← List.append_assoc]
      rw [hbooks.order]
    · simp only [if_true, hdecoded, hlost]
      rw [filter_append_singleton_of _ hlossy]
      exact hbooks.decoded
  | lossy hkind hopen hcontrol hcount =>
    have hcontrolKind := Packet.not_isControl_of_lossy hkind
    refine ⟨hok, fun _ ↦ ?_, ?_, ?_, ?_⟩
    · simp only [if_true, hbooks.takes hopen]
    · simp only [if_true, hcontrol]
      rw [filter_append_singleton_of _ hcontrolKind]
      exact hbooks.control
    · simp only [if_true, hcontrol]
      rw [filter_append_singleton_of _ (Packet.not_isPlain hcontrolKind)]
      exact hbooks.order
    · simp only [if_true]
      rw [List.filter_append, List.filter_singleton, hkind, List.length_append, hbooks.decoded]
      simp only [cond_true, List.length_singleton]
      omega
  | frame hkind hopen hkept =>
    obtain ⟨hlossy, hcontrolKind⟩ := Packet.kind_of_frame hkind
    refine ⟨hok, fun _ ↦ ?_, ?_, ?_, ?_⟩
    · simp only [if_true, hbooks.takes hopen]
    · simp only [if_true, hkept.control]
      rw [filter_append_singleton_of _ hcontrolKind]
      exact hbooks.control
    · simp only [if_true, hkept.control]
      rw [filter_append_singleton_of _ (Packet.not_isPlain hcontrolKind)]
      exact hbooks.order
    · simp only [if_true, hkept.decoded, hkept.lost]
      rw [filter_append_singleton_of _ hlossy]
      exact hbooks.decoded

theorem Books.pop (hbooks : history.Books) {queue : Queue} {out : Option Delivery} (hok : queue.Ok)
    (hpopped : Queue.Popped history.queue out queue) :
    Books { history with queue := queue, delivered := history.delivered ++ out.toList } := by
  cases hpopped with
  | empty hkept =>
    have hdelivered : history.delivered ++ (none : Option Delivery).toList = history.delivered :=
      List.append_nil _
    rw [hdelivered]
    refine ⟨hok, fun hopen ↦ hbooks.takes (hkept.closed.symm.trans hopen), ?_, ?_, ?_⟩
    · simpa only [hkept.control] using hbooks.control
    · simpa only [hkept.control] using hbooks.order
    · simpa only [hkept.decoded, hkept.lost] using hbooks.decoded
  | report hcontrol hdecoded hclosed hlost =>
    refine ⟨hok, fun hopen ↦ hbooks.takes (hclosed.symm.trans hopen), ?_, ?_, ?_⟩
    · simpa only [Option.toList_some, deliveredPackets_report, hcontrol] using hbooks.control
    · simpa only [Option.toList_some, deliveredPackets_report, hcontrol] using hbooks.order
    · have := hbooks.decoded
      simp only [Option.toList_some, deliveredPackets_report, reportedLost_report, hdecoded, hlost]
      omega
  | @control _ packet ahead behind hbefore hafter hahead _ hdecoded hlost hclosed =>
    have hkind : packet.isControl := hbooks.ok.control packet (by rw [hbefore]; simp)
    have hlossy := Packet.not_lossy_of_isControl hkind
    have hnone : ahead.filter Packet.isPlain = [] := by
      rw [List.filter_eq_nil_iff]
      exact fun other hmem ↦ by rw [hahead other hmem]; decide
    refine ⟨hok, fun hopen ↦ hbooks.takes (hclosed.symm.trans hopen), ?_, ?_, ?_⟩
    · have hperm := hbooks.control
      rw [hbefore] at hperm
      simp only [Option.toList_some, deliveredPackets_packet, hafter, List.filter_append,
        List.filter_singleton, hkind, cond_true]
      rw [List.append_assoc, List.singleton_append]
      exact hperm.trans (List.perm_middle.append_left _)
    · have horder := hbooks.order
      simp only [hbefore, List.filter_append, hnone, List.nil_append] at horder
      simp only [Option.toList_some, deliveredPackets_packet, hafter, List.filter_append, hnone,
        List.nil_append, List.append_assoc, horder]
      rw [← List.filter_append [packet], List.singleton_append]
    · simp only [Option.toList_some, deliveredPackets_packet, reportedLost_packet, hdecoded, hlost]
      rw [filter_append_singleton_of _ hlossy]
      exact hbooks.decoded
  | @lossy _ packet hcontrol hdecoded hlost hclosed =>
    have hkind : packet.lossy := hbooks.ok.decoded packet (by rw [hdecoded]; exact List.mem_cons_self)
    have hcontrolKind := Packet.not_isControl_of_lossy hkind
    refine ⟨hok, fun hopen ↦ hbooks.takes (hclosed.symm.trans hopen), ?_, ?_, ?_⟩
    · simp only [Option.toList_some, deliveredPackets_packet, hcontrol]
      rw [filter_append_singleton_of _ hcontrolKind]
      exact hbooks.control
    · simp only [Option.toList_some, deliveredPackets_packet, hcontrol]
      rw [filter_append_singleton_of _ (Packet.not_isPlain hcontrolKind)]
      exact hbooks.order
    · have hcount := hbooks.decoded
      rw [hdecoded, List.length_cons] at hcount
      simp only [Option.toList_some, deliveredPackets_packet, reportedLost_packet, hlost,
        List.filter_append, List.filter_singleton, hkind, cond_true, List.length_append,
        List.length_singleton]
      omega
  | @frame _ packet hkind hkept =>
    obtain ⟨hlossy, hcontrolKind⟩ := Packet.kind_of_frame hkind
    refine ⟨hok, fun hopen ↦ hbooks.takes (hkept.closed.symm.trans hopen), ?_, ?_, ?_⟩
    · simp only [Option.toList_some, deliveredPackets_packet, hkept.control]
      rw [filter_append_singleton_of _ hcontrolKind]
      exact hbooks.control
    · simp only [Option.toList_some, deliveredPackets_packet, hkept.control]
      rw [filter_append_singleton_of _ (Packet.not_isPlain hcontrolKind)]
      exact hbooks.order
    · simp only [Option.toList_some, deliveredPackets_packet, reportedLost_packet, hkept.decoded,
        hkept.lost]
      rw [filter_append_singleton_of _ hlossy]
      exact hbooks.decoded

theorem Books.step (hbooks : history.Books) (op : Op) :
    ∃ after, history.step op = some after ∧ after.Books := by
  cases op with
  | push packet =>
    obtain ⟨took, queue, hpush, hok, hpushed⟩ := Queue.push_spec hbooks.ok packet
    exact ⟨_, by rw [History.step, hpush]; rfl, hbooks.push hok hpushed⟩
  | pop now =>
    obtain ⟨queue, out, hpop, hok, hpopped⟩ := Queue.pop_spec hbooks.ok now
    exact ⟨_, by rw [History.step, hpop]; rfl, hbooks.pop hok hpopped⟩

theorem Books.run (hbooks : history.Books) (ops : List Op) :
    ∃ after, history.run ops = some after ∧ after.Books := by
  induction ops generalizing history with
  | nil => exact ⟨history, rfl, hbooks⟩
  | cons op ops ih =>
    obtain ⟨next, hstep, hnext⟩ := hbooks.step op
    obtain ⟨after, hrun, hafter⟩ := ih hnext
    refine ⟨after, ?_, hafter⟩
    rw [History.run, List.foldlM_cons, hstep]
    exact hrun

/-- A control packet that comes out waits for nothing any more. -/
theorem Books.barrier (hbooks : history.Books) {now stream : ℕ} {queue : Queue} {packet : Packet}
    (hpop : history.queue.pop now = some (queue, some (.packet packet))) (hkind : packet.isControl)
    (hbarrier : packet.barrier = some stream) :
    ∀ frame ∈ queue.audio ++ queue.media, frame.ofStream stream = false := by
  rw [Packet.isControl, Bool.and_eq_true, Bool.not_eq_true', Option.isNone_iff_eq_none] at hkind
  obtain ⟨after, out, hafter, -, hpopped⟩ := Queue.pop_spec hbooks.ok now
  rw [hpop] at hafter
  obtain ⟨rfl, rfl⟩ := Prod.mk.inj (Option.some.inj hafter)
  cases hpopped with
  | control ahead behind hbefore _ _ hfree => exact hfree stream hbarrier
  | lossy hcontrol hdecoded =>
    have := hbooks.ok.decoded packet (by rw [hdecoded]; exact List.mem_cons_self)
    rw [hkind.1] at this
    cases this
  | frame hframe =>
    rw [hkind.2, Option.isSome_none, Bool.and_false] at hframe
    cases hframe

end History

end Sdrmm.Outbox
