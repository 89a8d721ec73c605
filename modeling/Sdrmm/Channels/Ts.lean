import Sdrmm.Dsp.Crc
import Sdrmm.Lib.SortedMap

/-!
# The transport stream

The demultiplexer of `datv/ts.rs`: the tables of a multiplex, which say what its packets carry, and the
packetized units of the streams of one program.  Loops over the bytes of a section run within as many steps
as there are bytes.  Over it stands the writer, with the packets it makes of a unit.
-/

namespace Sdrmm.Ts

open Sdrmm.Dsp

def packet : ℕ := 188
def sync : UInt8 := 0x47
def patPid : ℕ := 0x0000
def sdtPid : ℕ := 0x0011
def nullPid : ℕ := 0x1FFF
def patTable : UInt8 := 0x00
def pmtTable : UInt8 := 0x02
def sdtTable : UInt8 := 0x42
def maxSection : ℕ := 1024
def maxPes : ℕ := 8 * 2 ^ 20

/-- A 32-bit counter that stays at its greatest value. -/
def increment (counter : ℕ) : ℕ := min (counter + 1) (2 ^ 32 - 1)

/-! ## Programs -/

inductive StreamKind
  | mpeg2Video | h264Video | h265Video
  | mpeg1Audio | mpeg2Audio | aacAudio | latmAudio | ac3Audio | eac3Audio
  | other (value : UInt8)
  deriving DecidableEq

namespace StreamKind

def fromType (value : UInt8) : StreamKind :=
  if value = 0x01 ∨ value = 0x02 then .mpeg2Video
  else if value = 0x1B then .h264Video
  else if value = 0x24 then .h265Video
  else if value = 0x03 then .mpeg1Audio
  else if value = 0x04 then .mpeg2Audio
  else if value = 0x0F then .aacAudio
  else if value = 0x11 then .latmAudio
  else if value = 0x81 then .ac3Audio
  else if value = 0x87 then .eac3Audio
  else .other value

def isVideo : StreamKind → Bool
  | .mpeg2Video | .h264Video | .h265Video => true
  | _ => false

def isAudio : StreamKind → Bool
  | .mpeg1Audio | .mpeg2Audio | .aacAudio | .latmAudio | .ac3Audio | .eac3Audio => true
  | _ => false

end StreamKind

structure ElementaryStream where
  pid : ℕ
  kind : StreamKind
  language : Option String

structure Program where
  number : ℕ := 0
  pmtPid : ℕ := 0
  pcrPid : ℕ := 0
  name : Option String := none
  provider : Option String := none
  streams : List ElementaryStream := []

/-! ## Sections -/

structure SectionBuffer where
  data : List UInt8 := []
  want : ℕ := 0

def sectionIsValid (bytes : List UInt8) : Bool := decide (4 < bytes.length) && crc32Mpeg bytes == 0

namespace SectionBuffer

/-- The sections that are complete. -/
def collect : ℕ → SectionBuffer → SectionBuffer × List (List UInt8)
  | 0, buffer => (buffer, [])
  | fuel + 1, buffer =>
      let length := be16 (buffer.data.getD 1 0 &&& 0x0F) (buffer.data.getD 2 0)
      if buffer.want = 0 ∧ buffer.data.length < 3 then (buffer, [])
      else if buffer.want = 0 ∧ maxSection < length + 3 then ({}, [])
      else
        let want := if buffer.want = 0 then length + 3 else buffer.want
        if buffer.data.length < want then ({ buffer with want := want }, [])
        else
          let found := if sectionIsValid (buffer.data.take want) then [buffer.data.take want] else []
          let rest := buffer.data.drop want
          if rest.head?.all (· == 0xFF) then ({}, found)
          else
            let (buffer, more) := collect fuel { data := rest }
            (buffer, found ++ more)

def append (buffer : SectionBuffer) (body : List UInt8) : SectionBuffer × List (List UInt8) :=
  collect (buffer.data.length + body.length + 1) { buffer with data := buffer.data ++ body }

def push (buffer : SectionBuffer) (payload : List UInt8) (start : Bool) :
    SectionBuffer × List (List UInt8) :=
  if start then
    match payload with
    | [] => (buffer, [])
    | pointer :: rest =>
        if rest.length < pointer.toNat then (buffer, [])
        else
          let ended :=
            if pointer ≠ 0 ∧ buffer.data ≠ [] then (buffer.append (rest.take pointer.toNat)).2 else []
          let (buffer, found) := ({} : SectionBuffer).append (rest.drop pointer.toNat)
          (buffer, ended ++ found)
  else if buffer.data = [] then (buffer, [])
  else buffer.append payload

end SectionBuffer

/-- The printable characters, without the spaces around them. -/
def text (bytes : List UInt8) : String :=
  let isSpace : Char → Bool := fun c ↦ c.toNat == 0x20 || c.toNat == 0x85 || c.toNat == 0xA0
  let chars := (bytes.filter fun byte ↦ 0x20 ≤ byte ∧ byte ≠ 0x7F).map fun byte ↦
    Char.ofNat byte.toNat
  String.ofList ((chars.dropWhile isSpace).reverse.dropWhile isSpace).reverse

/-- What the first descriptor that `read` understands says; a descriptor that is cut off says nothing. -/
def descriptor {β : Type} (read : UInt8 → List UInt8 → Option (Option β)) :
    ℕ → List UInt8 → Option β
  | fuel + 1, tag :: length :: rest =>
      if rest.length < length.toNat then none
      else
        match read tag (rest.take length.toNat) with
        | some result => result
        | none => descriptor read fuel (rest.drop length.toNat)
  | _, _ => none

def privateAudioDescriptor (descriptors : List UInt8) : Option StreamKind :=
  descriptor (fun tag body ↦
    if tag = 0x6a then some (some .ac3Audio)
    else if tag = 0x7a then some (some .eac3Audio)
    else if tag = 5 ∧ body.take 4 = [65, 67, 45, 51] then some (some .ac3Audio)
    else if tag = 5 ∧ body.take 4 = [69, 65, 67, 51] then some (some .eac3Audio)
    else none) descriptors.length descriptors

def languageDescriptor (descriptors : List UInt8) : Option String :=
  descriptor (fun tag body ↦
    if tag = 0x0A ∧ 3 ≤ body.length then some (some (text (body.take 3))) else none)
    descriptors.length descriptors

/-- The provider and the name of a service. -/
def serviceDescriptor (descriptors : List UInt8) : Option (Option String × Option String) :=
  descriptor (fun tag body ↦
    if tag = 0x48 ∧ 2 ≤ body.length then
      let providerLength := (body.getD 1 0).toNat
      match body[2 + providerLength]? with
      | none => some none
      | some nameLength =>
          if body.length < 3 + providerLength + nameLength.toNat then some none
          else
            let given := fun value : String ↦ if value = "" then none else some value
            some (some (given (text ((body.drop 2).take providerLength)),
              given (text ((body.drop (3 + providerLength)).take nameLength.toNat))))
    else none) descriptors.length descriptors

/-! ## Units -/

structure PesUnit where
  pid : ℕ
  streamId : UInt8
  pts : Option ℕ
  payload : List UInt8
  deriving DecidableEq

structure PesBuffer where
  data : List UInt8 := []
  active : Bool := false

def readTimestamp (bytes : List UInt8) : Option ℕ :=
  match bytes with
  | b0 :: b1 :: b2 :: b3 :: b4 :: _ =>
      if b0 &&& 1 = 0 ∨ b2 &&& 1 = 0 ∨ b4 &&& 1 = 0 then none
      else some (b0.toNat / 2 % 8 * 2 ^ 30 + be16 b1 b2 / 2 * 2 ^ 15 + be16 b3 b4 / 2)
  | _ => none

/-- The time of a unit; no result is a header that does not hold what its flags say. -/
def readPts (data : List UInt8) (headerLength : ℕ) : Option (Option ℕ) :=
  let flags := data.getD 7 0 >>> 6
  if flags = 0 then some none
  else if (flags = 2 ∧ 5 ≤ headerLength) ∨ (flags = 3 ∧ 10 ≤ headerLength) then
    if data.getD 9 0 >>> 4 ≠ flags then none
    else if flags = 3 ∧ (data.getD 14 0 >>> 4 ≠ 1 ∨
        readTimestamp ((data.drop 14).take 5) = none) then none
    else (readTimestamp ((data.drop 9).take 5)).map some
  else none

def parsePes (pid : ℕ) (data : List UInt8) : Option PesUnit :=
  if data.length < 9 ∨ data.take 3 ≠ [0x00, 0x00, 0x01] ∨ data.getD 6 0 &&& 0xc0 ≠ 0x80 then none
  else
    let declared := be16 (data.getD 4 0) (data.getD 5 0)
    if declared ≠ 0 ∧ data.length < declared + 6 then none
    else
      let stop := if declared = 0 then data.length else min (6 + declared) data.length
      let headerLength := (data.getD 8 0).toNat
      if stop < 9 + headerLength then none
      else
        (readPts data headerLength).map fun pts ↦
          { pid := pid
            streamId := data.getD 3 0
            pts := pts
            payload := (data.take stop).drop (9 + headerLength) }

/-! ## The demultiplexer -/

structure TsDemux where
  sections : ℕ → Option SectionBuffer := fun _ ↦ none
  pes : ℕ → Option PesBuffer := fun _ ↦ none
  programs : SortedMap ℕ Program := .empty
  pmtPids : SortedMap ℕ ℕ := .empty
  selected : Option ℕ := none
  continuity : ℕ → Option (UInt8 × UInt32) := fun _ ↦ none
  dropped : ℕ := 0
  scrambled : ℕ := 0
  discontinuities : ℕ := 0
  packets : ℕ := 0

namespace TsDemux

def setSection (demux : TsDemux) (pid : ℕ) (buffer : Option SectionBuffer) : TsDemux :=
  { demux with sections := Function.update demux.sections pid buffer }

def setPes (demux : TsDemux) (pid : ℕ) (buffer : Option PesBuffer) : TsDemux :=
  { demux with pes := Function.update demux.pes pid buffer }

def setContinuity (demux : TsDemux) (pid : ℕ) (seen : Option (UInt8 × UInt32)) : TsDemux :=
  { demux with continuity := Function.update demux.continuity pid seen }

def forget (demux : TsDemux) (pid : ℕ) : TsDemux := (demux.setPes pid none).setSection pid none

def dropPid (demux : TsDemux) (pid : ℕ) : TsDemux :=
  { (demux.forget pid).setContinuity pid none with dropped := increment demux.dropped }

def program (demux : TsDemux) : Option Program :=
  match demux.selected with
  | some number => demux.programs.get? number
  | none =>
      demux.programs.values.find? fun program ↦
        program.streams.any fun stream ↦ stream.kind.isVideo || stream.kind.isAudio

def select (demux : TsDemux) (program : Option ℕ) : TsDemux :=
  if demux.selected ≠ program then
    { demux with selected := program, pes := fun _ ↦ none, scrambled := 0 }
  else demux

def isSectionPid (demux : TsDemux) (pid : ℕ) : Bool :=
  pid == patPid || pid == sdtPid || demux.pmtPids.contains pid

def isSelectedStream (demux : TsDemux) (pid : ℕ) : Bool :=
  demux.program.any fun program ↦ program.streams.any fun stream ↦ stream.pid == pid

/-- The first pieces of four bytes of a list. -/
def fours : List UInt8 → List (UInt8 × UInt8 × UInt8 × UInt8)
  | a :: b :: c :: d :: rest => (a, b, c, d) :: fours rest
  | _ => []

/-- A program with the stream of its table. -/
def announce (demux : TsDemux) (listed : ℕ × ℕ) : TsDemux :=
  { demux with
    pmtPids := demux.pmtPids.insert listed.2 listed.1
    programs := demux.programs.insert listed.1
      { (demux.programs.get? listed.1).getD {} with number := listed.1, pmtPid := listed.2 } }

def applyPat (demux : TsDemux) (bytes : List UInt8) : TsDemux :=
  if bytes.length < 12 then demux
  else
    let listed := (fours ((bytes.take (bytes.length - 4)).drop 8)).filterMap fun (a, b, c, d) ↦
      if be16 a b = 0 then none else some (be16 a b, be16 (c &&& 0x1F) d)
    let demux := listed.foldl announce { demux with pmtPids := .empty }
    { demux with programs := demux.programs.retain fun number ↦ demux.pmtPids.values.any (· == number) }

/-- The streams that a table lists. -/
def pmtStreams : ℕ → List UInt8 → List ElementaryStream
  | fuel + 1, kind :: high :: low :: lengthHigh :: lengthLow :: rest =>
      let length := be16 (lengthHigh &&& 0x0F) lengthLow
      if rest.length < length then []
      else
        let descriptors := rest.take length
        let given := StreamKind.fromType kind
        { pid := be16 (high &&& 0x1F) low
          kind :=
            if given = .other 0x06 then (privateAudioDescriptor descriptors).getD given else given
          language := languageDescriptor descriptors } :: pmtStreams fuel (rest.drop length)
  | _, _ => []

def applyPmt (demux : TsDemux) (pid : ℕ) (bytes : List UInt8) : TsDemux :=
  match demux.pmtPids.get? pid with
  | none => demux
  | some number =>
      if bytes.length < 16 then demux
      else
        let skipped := 12 + be16 (bytes.getD 10 0 &&& 0x0F) (bytes.getD 11 0)
        { demux with
          programs := demux.programs.insert number
            { (demux.programs.get? number).getD {} with
              number := number
              pmtPid := pid
              pcrPid := be16 (bytes.getD 8 0 &&& 0x1F) (bytes.getD 9 0)
              streams := pmtStreams bytes.length ((bytes.take (bytes.length - 4)).drop skipped) } }

/-- The services that a table names. -/
def sdtServices : ℕ → List UInt8 → SortedMap ℕ Program → SortedMap ℕ Program
  | fuel + 1, high :: low :: _ :: lengthHigh :: lengthLow :: rest, programs =>
      let length := be16 (lengthHigh &&& 0x0F) lengthLow
      if rest.length < length then programs
      else
        sdtServices fuel (rest.drop length)
          (match serviceDescriptor (rest.take length), programs.get? (be16 high low) with
          | some (provider, name), some program =>
              programs.insert (be16 high low) { program with provider := provider, name := name }
          | _, _ => programs)
  | _, _, programs => programs

def applySdt (demux : TsDemux) (bytes : List UInt8) : TsDemux :=
  if bytes.length < 15 then demux
  else
    { demux with
      programs := sdtServices bytes.length ((bytes.take (bytes.length - 4)).drop 11) demux.programs }

def applySection (demux : TsDemux) (pid : ℕ) (bytes : List UInt8) : TsDemux :=
  let table := bytes.getD 0 0
  if pid = patPid ∧ table = patTable then demux.applyPat bytes
  else if pid = sdtPid ∧ table = sdtTable then demux.applySdt bytes
  else if table = pmtTable then demux.applyPmt pid bytes
  else demux

def pushSection (demux : TsDemux) (pid : ℕ) (payload : List UInt8) (start : Bool) : TsDemux :=
  let (buffer, found) := ((demux.sections pid).getD {}).push payload start
  found.foldl (fun demux bytes ↦ demux.applySection pid bytes) (demux.setSection pid (some buffer))

end TsDemux

/-- What a unit that ends gives: itself, or one that is dropped. -/
def closePes (pid : ℕ) (data : List UInt8) : List PesUnit × ℕ :=
  match parsePes pid data with
  | some unit => ([unit], 0)
  | none => ([], 1)

/-- The payload of a packet joins the unit: the buffer behind it, the units that came out and how many were
dropped. -/
def PesBuffer.push (buffer : PesBuffer) (pid : ℕ) (payload : List UInt8) (start : Bool) :
    PesBuffer × List PesUnit × ℕ :=
  if !start && !buffer.active then (buffer, [], 0)
  else
    let (ended, lost) := if start && buffer.active then closePes pid buffer.data else ([], 0)
    let data := if start then [] else buffer.data
    if maxPes < data.length + payload.length then ({}, ended, lost + 1)
    else
      let data := data ++ payload
      let length := be16 (data.getD 4 0) (data.getD 5 0)
      if 6 ≤ data.length ∧ 0 < length ∧ length + 6 ≤ data.length then
        let (complete, more) := closePes pid data
        ({}, ended ++ complete, lost + more)
      else ({ data := data, active := true }, ended, lost)

namespace TsDemux

def pushPes (demux : TsDemux) (pid : ℕ) (payload : List UInt8) (start : Bool) :
    TsDemux × List PesUnit :=
  let (buffer, units, lost) := ((demux.pes pid).getD {}).push pid payload start
  ({ demux.setPes pid (some buffer) with dropped := increment^[lost] demux.dropped }, units)

/-- Where the payload begins; no result is an adaptation field that does not fit. -/
def payloadOffset (bytes : List UInt8) : Option ℕ :=
  if bytes.getD 3 0 &&& 0x20 = 0 then some 4
  else if packet < 5 + (bytes.getD 4 0).toNat then none
  else some (5 + (bytes.getD 4 0).toNat)

/-- Whether the adaptation field tells of a new start. -/
def restarts (bytes : List UInt8) : Bool :=
  bytes.getD 3 0 &&& 0x20 != 0 && bytes.getD 4 0 != 0 && bytes.getD 5 0 &&& 0x80 != 0

/-- The payload of a packet that has not come before. -/
def route (demux : TsDemux) (pid : ℕ) (payload : List UInt8) (start : Bool) : TsDemux × List PesUnit :=
  if demux.isSectionPid pid then (demux.pushSection pid payload start, [])
  else if demux.isSelectedStream pid then demux.pushPes pid payload start
  else (demux, [])

/-- A packet with a payload from `offset` on. -/
def take (demux : TsDemux) (pid offset : ℕ) (bytes : List UInt8) : TsDemux × List PesUnit :=
  let counter := bytes.getD 3 0 &&& 15
  let start := bytes.getD 1 0 &&& 0x40 != 0
  let seen := demux.continuity pid
  let demux := demux.setContinuity pid (some (counter, crc32Mpeg bytes))
  if seen = some (counter, crc32Mpeg bytes) then (demux, [])
  else
    let demux :=
      if seen.any fun previous ↦ (previous.1 + 1) &&& 15 != counter then
        { demux.forget pid with discontinuities := increment demux.discontinuities }
      else demux
    demux.route pid (bytes.drop offset) start

/-- The stream that a packet is of. -/
def pidOf (bytes : List UInt8) : ℕ := be16 (bytes.getD 1 0 &&& 0x1f) (bytes.getD 2 0)

def push (demux : TsDemux) (bytes : List UInt8) : TsDemux × List PesUnit :=
  if bytes.getD 0 0 ≠ sync then ({ demux with dropped := increment demux.dropped }, [])
  else
    let pid := pidOf bytes
    if pid = nullPid then (demux, [])
    else
      let demux := { demux with packets := demux.packets + 1 }
      if bytes.getD 1 0 &&& 0x80 ≠ 0 ∨ bytes.getD 3 0 &&& 0x30 = 0 then (demux.dropPid pid, [])
      else
        match payloadOffset bytes with
        | none => (demux.dropPid pid, [])
        | some offset =>
            let demux :=
              if restarts bytes then (demux.forget pid).setContinuity pid none else demux
            if bytes.getD 3 0 &&& 0x10 = 0 then (demux, [])
            else if bytes.getD 3 0 &&& 0xc0 ≠ 0 then
              let scrambled :=
                if demux.isSelectedStream pid then increment demux.scrambled else demux.scrambled
              ({ demux with scrambled := scrambled }.dropPid pid, [])
            else if packet ≤ offset then (demux.dropPid pid, [])
            else demux.take pid offset bytes

def run (demux : TsDemux) : List (List UInt8) → TsDemux × List PesUnit
  | [] => (demux, [])
  | bytes :: rest =>
      let (demux, units) := demux.push bytes
      let (demux, more) := demux.run rest
      (demux, units ++ more)

end TsDemux

/-! ## The writer -/

/-- A packet of the writer: the first of a body or not, with its counter and its piece of the body. -/
structure Piece where
  pid : ℕ
  start : Bool
  counter : UInt8
  chunk : List UInt8

namespace Piece

/-- The adaptation field that fills a packet up. -/
def stuffing (length : ℕ) : List UInt8 :=
  match packet - 4 - length with
  | 0 => []
  | 1 => [0]
  | count + 2 => UInt8.ofNat (count + 1) :: 0x00 :: List.replicate count 0xFF

def bytes (piece : Piece) : List UInt8 :=
  [sync, (UInt8.ofNat (piece.pid / 256) &&& 0x1F) ||| (if piece.start then 0x40 else 0x00),
    UInt8.ofNat piece.pid,
    0x10 ||| piece.counter ||| (if piece.chunk.length < packet - 4 then 0x20 else 0x00)] ++
  stuffing piece.chunk.length ++ piece.chunk

end Piece

/-- The pieces of a body from the first that is left, and the counter behind them. -/
def pieces (pid : ℕ) : ℕ → Bool → UInt8 → List UInt8 → List Piece × UInt8
  | 0, _, counter, _ => ([], counter)
  | fuel + 1, start, counter, body =>
      if body = [] then ([], counter)
      else
        let (rest, last) :=
          pieces pid fuel false ((counter + 1) &&& 0x0F) (body.drop (packet - 4))
        (⟨pid, start, counter, body.take (packet - 4)⟩ :: rest, last)

theorem forall_byte {P : UInt8 → Prop} (hall : ∀ i : Fin 256, P (UInt8.ofNat i)) (byte : UInt8) :
    P byte := by
  have hbyte := hall ⟨byte.toNat, byte.toNat_lt⟩
  rwa [UInt8.ofNat_toNat] at hbyte

set_option maxRecDepth 100000 in
theorem next_counter : ∀ counter : UInt8, (counter + 1) &&& 0x0F &&& 0x0F = (counter + 1) &&& 0x0F :=
  forall_byte (by decide)

theorem pieces_counter (pid fuel : ℕ) (start : Bool) {counter : UInt8}
    (hcounter : counter &&& 0x0F = counter) (body : List UInt8) :
    (pieces pid fuel start counter body).2 &&& 0x0F = (pieces pid fuel start counter body).2 := by
  induction fuel generalizing start counter body with
  | zero => exact hcounter
  | succ fuel ih =>
    rw [pieces]
    split
    · exact hcounter
    · exact ih false (next_counter counter) _

/-- The counters of the streams, of four bits each. -/
structure TsWriter where
  counters : ℕ → UInt8 := fun _ ↦ 0
  four_bits : ∀ pid, counters pid &&& 0x0F = counters pid := by exact fun _ ↦ rfl

/-- A call of the writer for one unit. -/
structure PesCall where
  pid : ℕ
  streamId : UInt8
  pts : ℕ
  payload : List UInt8

namespace TsWriter

def payload (writer : TsWriter) (pid : ℕ) (body : List UInt8) : TsWriter × List Piece :=
  let made := pieces pid body.length true (writer.counters pid) body
  ({ counters := Function.update writer.counters pid made.2
     four_bits := by
      intro other
      rcases eq_or_ne other pid with rfl | hother
      · rw [Function.update_self]
        exact pieces_counter _ _ _ (writer.four_bits _) _
      · rw [Function.update_of_ne hother]
        exact writer.four_bits other }, made.1)

def sections (writer : TsWriter) (pid : ℕ) (bytes : List UInt8) : TsWriter × List Piece :=
  writer.payload pid (0 :: bytes)

/-- The bytes of a unit. -/
def pesBody (streamId : UInt8) (pts : ℕ) (payload : List UInt8) : List UInt8 :=
  let length := if 8 + payload.length < 0x10000 then 8 + payload.length else 0
  [0x00, 0x00, 0x01, streamId] ++ toBe16 length ++ [0x80, 0x80, 5] ++
    [0x21 ||| (UInt8.ofNat (pts / 2 ^ 29) &&& 0x0E)] ++ toBe16 (pts / 2 ^ 15 % 2 ^ 15 * 2 + 1) ++
    toBe16 (pts % 2 ^ 15 * 2 + 1) ++ payload

def pes (writer : TsWriter) (call : PesCall) : TsWriter × List Piece :=
  writer.payload call.pid (pesBody call.streamId call.pts call.payload)

/-- The packets of call after call. -/
def run (writer : TsWriter) : List PesCall → TsWriter × List Piece
  | [] => (writer, [])
  | call :: calls =>
      let (writer, made) := writer.pes call
      let (writer, more) := writer.run calls
      (writer, made ++ more)

end TsWriter

end Sdrmm.Ts
