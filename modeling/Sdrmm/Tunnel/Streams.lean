import Mathlib.Tactic

/-!
# The streams of the tunnel

`Streams` of `tunnel/src/client.rs` with the tasks it spawns.  A task is what the table knows of it: its queue
of inbound items, its window, and how it ended.  What the tasks do in between is any order of taking an item,
sending a frame, spending the window and dropping the receiver of the queue.
-/

namespace Sdrmm.Tunnel

def window : ℤ := 256 * 1024
def controlStream : ℕ := 0
/-- The capacity of a queue. -/
def inbound : ℕ := 256

structure RequestHead where
  method : String
  uri : String
  headers : List (String × String)
  websocket : Bool
  user : String
deriving DecidableEq

structure ResponseHead where
  status : ℕ
  headers : List (String × String)
deriving DecidableEq

inductive Frame
  | challenge (nonce : List UInt8)
  | proof (signature : List UInt8)
  | ready
  | request (stream : ℕ) (head : RequestHead)
  | response (stream : ℕ) (head : ResponseHead)
  | body (stream : ℕ) (data : List UInt8)
  /-- `End`. -/
  | fin (stream : ℕ)
  | text (stream : ℕ) (data : List UInt8)
  | binary (stream : ℕ) (data : List UInt8)
  | close (stream : ℕ) (code : ℕ) (reason : String)
  | reset (stream : ℕ) (reason : String)
  | credit (stream : ℕ) (bytes : ℕ)
  | health (data : List UInt8)
deriving DecidableEq

def Frame.stream : Frame → ℕ
  | .challenge _ | .proof _ | .ready | .health _ => controlStream
  | .request stream _ | .response stream _ | .body stream _ | .fin stream | .text stream _
  | .binary stream _ | .close stream _ _ | .reset stream _ | .credit stream _ => stream

inductive Inbound
  | body (data : List UInt8)
  /-- `End`. -/
  | fin
  | text (data : List UInt8)
  | binary (data : List UInt8)
  | close (code : ℕ) (reason : String)
deriving DecidableEq

inductive Ended
  /-- The task ran to completion. -/
  | returned
  | panicked
  | cancelled
deriving DecidableEq

structure Task where
  stream : ℕ
  head : RequestHead
  queue : List Inbound
  /-- The task has the receiver of its queue. -/
  receiving : Bool
  available : ℤ
  aborted : Bool
  ended : Option Ended
  joined : Bool
deriving DecidableEq

/-- `open` has, by stream, the task whose queue, window and handle the entry is. -/
structure Streams where
  «open» : ℕ → Option ℕ
  tasks : List Task
  /-- The frames that were sent to the relay. -/
  out : List Frame

namespace Streams

variable (streams : Streams)

def new : Streams := ⟨fun _ ↦ none, [], []⟩

def modify (task : ℕ) (change : Task → Task) : Streams :=
  { streams with tasks := streams.tasks.modify task change }

def remove (stream : ℕ) : Streams := { streams with «open» := Function.update streams.open stream none }

/-- Aborting a task that has ended changes nothing. -/
def abort (task : ℕ) : Streams :=
  streams.modify task fun task ↦ if task.ended.isNone then { task with aborted := true } else task

def send (frame : Frame) : Streams := { streams with out := streams.out ++ [frame] }

def start (stream : ℕ) (head : RequestHead) : Except String Streams :=
  if stream = controlStream ∨ (streams.open stream).isSome then .error s!"stream {stream} opened twice"
  else .ok
    { streams with
      «open» := Function.update streams.open stream (some streams.tasks.length)
      tasks := streams.tasks ++ [{ stream, head, queue := [], receiving := true, available := window,
                                   aborted := false, ended := none, joined := false }] }

inductive TrySend
  | sent
  | full
  | closed
deriving DecidableEq

def trySend (task : Task) : TrySend :=
  if !task.receiving then .closed else if inbound ≤ task.queue.length then .full else .sent

def deliver (stream : ℕ) (item : Inbound) : Streams :=
  match streams.open stream with
  | none => streams
  | some number =>
    match streams.tasks[number]?.map trySend with
    | some .sent => streams.modify number fun task ↦ { task with queue := task.queue ++ [item] }
    | some .full => ((streams.remove stream).abort number).send (.reset stream "window overrun")
    | _ => streams

def grant (task : Task) (bytes : ℕ) : Task :=
  { task with available := min (task.available + bytes) (2 ^ 63 - 1) }

def handle : Frame → Except String Streams
  | .request stream head => streams.start stream head
  | .body stream data => .ok (streams.deliver stream (.body data))
  | .fin stream => .ok (streams.deliver stream .fin)
  | .text stream data => .ok (streams.deliver stream (.text data))
  | .binary stream data => .ok (streams.deliver stream (.binary data))
  | .close stream code reason => .ok (streams.deliver stream (.close code reason))
  | .credit stream bytes =>
    match streams.open stream with
    | none => .ok streams
    | some number => .ok (streams.modify number (grant · bytes))
  | .reset stream _ =>
    match streams.open stream with
    | none => .ok streams
    | some number => .ok ((streams.remove stream).abort number)
  | frame => .error s!"unexpected frame on stream {frame.stream}"

/-- The join of a task that ended. -/
def finish (stream : ℕ) : Ended → Streams
  | .returned => streams.remove stream
  | _ => streams

end Streams

/-! ## Runs -/

inductive Action
  /-- A frame of the relay. -/
  | frame (frame : Frame)
  /-- A task takes an item off its queue, sends a frame, spends its window, or drops its receiver. -/
  | take (task : ℕ)
  | send (task : ℕ) (frame : Frame)
  | spend (task bytes : ℕ)
  | drop (task : ℕ)
  /-- A task ends. -/
  | finish (task : ℕ) (ended : Ended)
  /-- The loop joins a task that ended. -/
  | join (task : ℕ)
deriving DecidableEq

namespace Streams

variable (streams : Streams)

/-- A step of a task that runs. -/
def running (number : ℕ) (change : Task → Option Task) : Option Streams := do
  let task ← streams.tasks[number]?
  if task.ended.isSome then none
  else
    let after ← change task
    return streams.modify number fun _ ↦ after

def step : Action → Option Streams
  | .frame frame => (streams.handle frame).toOption
  | .take number => streams.running number fun task ↦
    if task.receiving then some { task with queue := task.queue.tail } else none
  | .send number frame => do
    let task ← streams.tasks[number]?
    if task.ended.isSome ∨ frame.stream ≠ task.stream then none else return streams.send frame
  | .spend number bytes => streams.running number fun task ↦
    if 0 < task.available then some { task with available := max (task.available - bytes) (-2 ^ 63) } else none
  | .drop number => streams.running number fun task ↦ some { task with receiving := false, queue := [] }
  | .finish number ended => streams.running number fun task ↦
    if ended = .cancelled ∧ !task.aborted then none
    else some { task with receiving := false, queue := [], ended := some ended }
  | .join number => do
    let task ← streams.tasks[number]?
    let ended ← task.ended
    if task.joined then none
    else return (streams.modify number fun task ↦ { task with joined := true }).finish task.stream ended

end Streams

end Sdrmm.Tunnel
