import Sdrmm.Channels.Mot
import Sdrmm.Dsp.Rs256
import Sdrmm.Lib.Chunked

/-!
# Packet mode of DAB

The decoder of `dab/packet.rs`: packets of a service are joined to data groups, behind which stand MOT
objects or the datagrams of `dab/packet/group.rs`.  With forward error correction the packets come in
blocks of 2256 bytes whose twelve interleaved rows are protected by nine packets behind them.

Both levels keep what they cannot take yet.
-/

namespace Sdrmm.DabPacket

open Sdrmm.Dsp Sdrmm.Rs256 Sdrmm.Mot

/-! ## Data groups -/

namespace Groups

structure Entity where
  segments : SortedMap ℕ (List UInt8) := .empty
  last : Option ℕ := none
  bytes : ℕ := 0

end Groups

structure Groups where
  pending : SortedMap ℕ Groups.Entity := .empty

namespace Groups

/-- What a data group holds: its payload, its segment number with the mark of the last one, and its
transport id. -/
structure Fields where
  payload : List UInt8
  segment : Option (ℕ × Bool)
  transport : Option ℕ

/-- The bytes from `start` up to `stop`, if they are there. -/
def get (bytes : List UInt8) (start stop : ℕ) (error : String) : Except String (List UInt8) :=
  if start ≤ stop ∧ stop ≤ bytes.length then .ok ((bytes.take stop).drop start) else .error error

def endOf (bytes : List UInt8) (header : UInt8) : Except String ℕ :=
  if header &&& 64 ≠ 0 then
    if bytes.length < 4 ∨ !crcOk bytes then .error "DAB data-group CRC failure"
    else .ok (bytes.length - 2)
  else .ok bytes.length

def segmentOf (bytes : List UInt8) (header : UInt8) (at₀ : ℕ) :
    Except String (Option (ℕ × Bool) × ℕ) :=
  if header &&& 32 ≠ 0 then do
    let field ← get bytes at₀ (at₀ + 2) "Truncated DAB segment header"
    return (some (be16 (field.getD 0 0 &&& 127) (field.getD 1 0), field.getD 0 0 &&& 128 != 0), at₀ + 2)
  else .ok (none, at₀)

def transportOf (bytes : List UInt8) (header : UInt8) (at₀ : ℕ) : Except String (Option ℕ × ℕ) :=
  if header &&& 16 ≠ 0 then
    match bytes[at₀]? with
    | none => .error "Truncated DAB user-access field"
    | some access => do
        let length := (access &&& 15).toNat
        let field ← get bytes (at₀ + 1) (at₀ + 1 + length) "Truncated DAB user-access data"
        if access &&& 16 ≠ 0 then
          let field ← get field 0 2 "Truncated DAB transport identifier"
          return (some (be16 (field.getD 0 0) (field.getD 1 0)), at₀ + 1 + length)
        else return (none, at₀ + 1 + length)
  else .ok (none, at₀)

def fields (bytes : List UInt8) : Except String Fields :=
  match bytes with
  | header :: _ :: _ => do
      let stop ← endOf bytes header
      let (segment, at₀) ← segmentOf bytes header (if header &&& 128 ≠ 0 then 4 else 2)
      let (transport, at₀) ← transportOf bytes header at₀
      return ⟨← get bytes at₀ stop "Truncated DAB data-group payload", segment, transport⟩
  | _ => .error "Truncated DAB data-group header"

def remove (groups : Groups) (id : ℕ) : Groups := ⟨groups.pending.erase id⟩

/-- The entity with a segment more, or why it is given up. -/
def Entity.store (entity : Entity) (index : ℕ) (last : Bool) (payload : List UInt8) :
    Except String Entity := do
  let entity ←
    (match entity.segments.get? index with
    | some old =>
        if old ≠ payload then .error "Conflicting DAB data retransmission" else .ok entity
    | none =>
        if 65535 < entity.bytes + payload.length then .error "DAB datagram exceeds 65535 bytes"
        else .ok { entity with
          bytes := entity.bytes + payload.length
          segments := entity.segments.insert index payload } : Except String Entity)
  if last then
    if entity.last.any (· != index) then throw "Conflicting DAB final segment"
    else return { entity with last := some index }
  else return entity

def push (groups : Groups) (bytes : List UInt8) : Groups × Except String (Option (List UInt8)) :=
  match fields bytes with
  | .error error => (groups, .error error)
  | .ok ⟨payload, none, _⟩ => (groups, .ok (some payload))
  | .ok ⟨_, some _, none⟩ => (groups, .error "Segmented DAB data requires a transport identifier")
  | .ok ⟨payload, some (index, last), some id⟩ =>
      if 4096 ≤ index then (groups, .error "DAB data segment number exceeds limit")
      else if !groups.pending.contains id ∧ 8 ≤ groups.pending.entries.length then
        (groups, .error "Too many incomplete DAB data groups")
      else
        match ((groups.pending.get? id).getD {}).store index last payload with
        | .error error => (groups.remove id, .error error)
        | .ok entity =>
            match entity.last with
            | none => (⟨groups.pending.insert id entity⟩, .ok none)
            | some last =>
                match (List.range (last + 1)).mapM entity.segments.get? with
                | none => (⟨groups.pending.insert id entity⟩, .ok none)
                | some segments => (groups.remove id, .ok (some segments.flatten))

end Groups

/-! ## Packets -/

def application : ℕ := 2256
def fecFrame : ℕ := 2472
def maxGroup : ℕ := 16384

structure Config where
  address : ℕ
  kind : UInt8
  dataGroups : Bool
  fec : Bool

inductive Event
  | label (text : String)
  | object (data : BroadcastData)
  | error (message : String)

/-- The decoder without the bytes it keeps. -/
structure Decoder where
  config : Config
  group : List UInt8 := []
  active : Bool := false
  continuity : Option (UInt8 × UInt32) := none
  mot : Mot.Receiver := {}
  groups : Groups := {}
  sequence : UInt64 := 0

namespace Decoder

/-- The protocol of an IP datagram of the length it says. -/
def ipProtocol (bytes : List UInt8) : Option ℕ :=
  if bytes.getD 0 0 >>> 4 = 4 ∧ 20 ≤ bytes.length ∧
      be16 (bytes.getD 2 0) (bytes.getD 3 0) = bytes.length then some 0x0800
  else if bytes.getD 0 0 >>> 4 = 6 ∧ 40 ≤ bytes.length ∧
      40 + be16 (bytes.getD 4 0) (bytes.getD 5 0) = bytes.length then some 0x86dd
  else none

def deliver (decoder : Decoder) (bytes : List UInt8) : Decoder × List Event :=
  if bytes = [] then (decoder, [])
  else if decoder.config.kind = 59 ∧ ipProtocol bytes = none then
    (decoder, [.error "Invalid DAB IP datagram"])
  else
    let sequence := decoder.sequence + 1
    let address := decoder.config.address
    ({ decoder with sequence := sequence },
      [.object
        { protocol := if decoder.config.kind = 59 then ipProtocol bytes else none
          label := []
          serviceId := none
          name := s!"DAB-{address}-{sequence}.bin"
          mediaType := "application/octet-stream"
          bytes := bytes }])

/-- A data group is complete. -/
def closeGroup (decoder : Decoder) (group : List UInt8) : Decoder × List Event :=
  let decoder := { decoder with active := false, group := [] }
  if decoder.config.kind = 60 then
    let (mot, result) := decoder.mot.push group
    let decoder := { decoder with mot := mot }
    match result with
    | .ok (some object) => (decoder, [.object object])
    | .ok none => (decoder, [])
    | .error error => (decoder, [.error error])
  else
    let (groups, result) := decoder.groups.push group
    let decoder := { decoder with groups := groups }
    match result with
    | .ok (some payload) => decoder.deliver payload
    | .ok none => (decoder, [])
    | .error error => (decoder, [.error error])

/-- The payload of a packet joins the data group. -/
def join (decoder : Decoder) (first last : Bool) (payload : List UInt8) : Decoder × List Event :=
  let decoder := if first then { decoder with group := [], active := true } else decoder
  if !decoder.active then (decoder, [])
  else if maxGroup < decoder.group.length + payload.length then
    ({ decoder with active := false }, [.error "DAB data group exceeds size limit"])
  else if last then decoder.closeGroup (decoder.group ++ payload)
  else ({ decoder with group := decoder.group ++ payload }, [])

def packet (decoder : Decoder) (bytes : List UInt8) : Decoder × List Event :=
  let continuity := (bytes.getD 0 0 >>> 4) &&& 3
  let first := bytes.getD 0 0 &&& 8 != 0
  let last := bytes.getD 0 0 &&& 4 != 0
  let length := (bytes.getD 2 0 &&& 127).toNat
  if bytes.getD 2 0 &&& 128 ≠ 0 then (decoder, [.error "DAB conditional-access command packet"])
  else if bytes.length - 5 < length then
    ({ decoder with active := false }, [.error "DAB packet payload exceeds its length"])
  else
    let fingerprint := crc32Mpeg bytes
    if decoder.continuity = some (continuity, fingerprint) then (decoder, [])
    else
      let gap := decoder.continuity.any fun old ↦ (old.1 + 1) &&& 3 != continuity
      let decoder := { decoder with
        active := if gap then false else decoder.active
        continuity := some (continuity, fingerprint) }
      let payload := (bytes.drop 3).take length
      let (decoder, events) :=
        if !decoder.config.dataGroups then decoder.deliver payload
        else decoder.join first last payload
      (decoder, (if gap then [.error "DAB packet continuity gap"] else []) ++ events)

/-- The length of the packet that starts with a byte. -/
def lengthOf (first : UInt8) : ℕ := ((first >>> 6).toNat + 1) * 24

def addressOf (bytes : List UInt8) : ℕ := (bytes.getD 0 0 &&& 3).toNat * 256 + (bytes.getD 1 0).toNat

/-- A packet of any service. -/
def anyPacket (decoder : Decoder) (bytes : List UInt8) : Decoder × List Event :=
  if addressOf bytes ≠ decoder.config.address then (decoder, [])
  else if !crcOk bytes then ({ decoder with active := false }, [.error "DAB packet CRC failure"])
  else decoder.packet bytes

/-- The packet at the front of the bytes, once it is there. -/
def packetStep (decoder : Decoder) (bytes : List UInt8) : Option (ℕ × Decoder × List Event) :=
  match bytes with
  | [] => none
  | first :: _ =>
      if bytes.length < 24 ∨ bytes.length < lengthOf first then none
      else some (lengthOf first, decoder.anyPacket (bytes.take (lengthOf first)))

def packetParser : ChunkParser Decoder UInt8 Event where
  step := packetStep
  pos {decoder bytes taken next out} hstep := by
    cases bytes with
    | nil => cases hstep
    | cons first bytes =>
      simp only [packetStep, Option.ite_none_left_eq_some, Option.some.injEq, Prod.mk.injEq] at hstep
      rw [← hstep.2.1, lengthOf]
      omega
  le {decoder bytes taken next out} hstep := by
    cases bytes with
    | nil => cases hstep
    | cons first bytes =>
      simp only [packetStep, Option.ite_none_left_eq_some, Option.some.injEq, Prod.mk.injEq] at hstep
      omega
  append {decoder bytes piece} hstep more := by
    cases bytes with
    | nil => cases hstep
    | cons first bytes =>
      simp only [packetStep, Option.ite_none_left_eq_some] at hstep
      obtain ⟨henough, hpiece⟩ := hstep
      have hlong : ¬((first :: bytes ++ more).length < 24 ∨
          (first :: bytes ++ more).length < lengthOf first) := by
        rw [List.length_append]
        omega
      rw [List.cons_append, packetStep, ← List.cons_append, if_neg hlong,
        List.take_append_of_le_length (by omega), hpiece]

end Decoder

/-! ## Blocks with error correction -/

/-- The decoder with the bytes of packets that are not complete. -/
structure Stream extends Decoder where
  packetPending : List UInt8 := []
  fecAligned : Bool := false

def Stream.packets (stream : Stream) (bytes : List UInt8) : Stream × List Event :=
  let (decoder, events, rest) :=
    Decoder.packetParser.drain stream.toDecoder (stream.packetPending ++ bytes)
  ({ stream with toDecoder := decoder, packetPending := rest }, events)

def rs : ReedSolomon := .new dvbPrimitive 0 16

/-- How many of the nine packets behind a block have their header. -/
def headers (bytes : List UInt8) : ℕ :=
  (List.range 9).countP fun i ↦
    bytes.getD (application + i * 24) 0 == UInt8.ofNat (4 * i + 3) &&
      bytes.getD (application + i * 24 + 1) 0 == 254

/-- A row of a block with its parity. -/
def word (bytes : List UInt8) (row : ℕ) : List UInt8 :=
  ((List.range 188).map fun column ↦ bytes.getD (column * 12 + row) 0) ++
    (List.range 16).map fun column ↦
      bytes.getD (application + (column * 12 + row) / 22 * 24 + 2 + (column * 12 + row) % 22) 0

def correct (word : List UInt8) : Option (List UInt8) :=
  match rs.decode word with
  | (some _, word) => some word
  | (none, _) => none

/-- The rows of a block, if each of them can be corrected. -/
def correctedRows (bytes : List UInt8) : Option (List (List UInt8)) :=
  ((List.range 12).map (word bytes)).mapM correct

/-- The bytes of a block from its rows. -/
def interleave (rows : List (List UInt8)) : List UInt8 :=
  (List.range application).map fun i ↦ (rows.getD (i % 12) []).getD (i / 12) 0

namespace Stream

/-- The block at the front of the bytes is looked for in steps of the smallest packet. -/
def fecStep (stream : Stream) (bytes : List UInt8) : Option (ℕ × Stream × List Event) :=
  if bytes.length < fecFrame then none
  else if headers bytes < 7 then
    if stream.fecAligned then
      some (24, { stream with fecAligned := false, active := false, packetPending := [] },
        [.error "DAB packet FEC alignment lost"])
    else some (24, stream, [])
  else
    match correctedRows bytes with
    | some rows => some (fecFrame, { stream with fecAligned := true }.packets (interleave rows))
    | none =>
        some (fecFrame, { stream with fecAligned := true, active := false },
          [.error "Uncorrectable DAB packet-mode FEC frame"])

/-- What follows a block is not looked at. -/
theorem fecStep_append {stream : Stream} {bytes : List UInt8} (hlength : ¬bytes.length < fecFrame)
    (more : List UInt8) : stream.fecStep (bytes ++ more) = stream.fecStep bytes := by
  have hget : ∀ i < fecFrame, (bytes ++ more).getD i 0 = bytes.getD i 0 :=
    fun i hi ↦ List.getD_append bytes more 0 i (by omega)
  have hheaders : headers (bytes ++ more) = headers bytes := by
    apply List.countP_congr
    intro i hi
    rw [List.mem_range] at hi
    rw [hget _ (by simp only [application, fecFrame]; omega),
      hget _ (by simp only [application, fecFrame]; omega)]
  have hword : ∀ row ∈ List.range 12, word (bytes ++ more) row = word bytes row := by
    intro row hrow
    rw [List.mem_range] at hrow
    unfold word
    congr 1
    · apply List.map_congr_left
      intro column hcolumn
      rw [List.mem_range] at hcolumn
      exact hget _ (by simp only [fecFrame]; omega)
    · apply List.map_congr_left
      intro column hcolumn
      rw [List.mem_range] at hcolumn
      exact hget _ (by simp only [application, fecFrame]; omega)
  have hrows : correctedRows (bytes ++ more) = correctedRows bytes := by
    rw [correctedRows, List.map_congr_left hword, correctedRows]
  rw [fecStep, fecStep, hheaders, hrows, if_neg hlength, if_neg (by rw [List.length_append]; omega)]

/-- A step takes a block or the smallest packet. -/
theorem fecStep_taken {stream next : Stream} {bytes : List UInt8} {taken : ℕ} {out : List Event}
    (hstep : stream.fecStep bytes = some (taken, next, out)) :
    fecFrame ≤ bytes.length ∧ (taken = 24 ∨ taken = fecFrame) := by
  rw [fecStep] at hstep
  by_cases hlength : bytes.length < fecFrame
  · rw [if_pos hlength] at hstep
    cases hstep
  · rw [if_neg hlength] at hstep
    refine ⟨Nat.not_lt.mp hlength, ?_⟩
    split_ifs at hstep
    · exact .inl (Prod.mk.inj (Option.some.inj hstep)).1.symm
    · exact .inl (Prod.mk.inj (Option.some.inj hstep)).1.symm
    · cases hrows : correctedRows bytes with
      | some rows =>
        rw [hrows] at hstep
        exact .inr (Prod.mk.inj (Option.some.inj hstep)).1.symm
      | none =>
        rw [hrows] at hstep
        exact .inr (Prod.mk.inj (Option.some.inj hstep)).1.symm

def fecParser : ChunkParser Stream UInt8 Event where
  step := fecStep
  pos hstep := by
    obtain ⟨-, rfl | rfl⟩ := fecStep_taken hstep
    · decide
    · decide
  le hstep := by
    obtain ⟨hlength, rfl | rfl⟩ := fecStep_taken hstep
    · exact Nat.le_trans (by decide) hlength
    · exact hlength
  append {stream bytes piece} hstep more := by
    by_cases hlength : bytes.length < fecFrame
    · rw [fecStep, if_pos hlength] at hstep
      cases hstep
    · rw [fecStep_append hlength]
      exact hstep

end Stream

structure PacketData extends Stream where
  pending : List UInt8 := []

namespace PacketData

def new (config : Config) : PacketData := { config := config }

def push (data : PacketData) (bytes : List UInt8) : PacketData × List Event :=
  if data.config.address = 0 then
    let (decoder, events) := data.deliver bytes
    ({ data with toDecoder := decoder }, events)
  else if !data.config.fec then
    let (stream, events) := data.packets bytes
    ({ data with toStream := stream }, events)
  else
    let (stream, events, rest) := Stream.fecParser.drain data.toStream (data.pending ++ bytes)
    ({ toStream := stream, pending := rest }, events)

/-- The chunks of a stream, one after another. -/
def run (data : PacketData) : List (List UInt8) → PacketData × List Event
  | [] => (data, [])
  | chunk :: chunks =>
      let (data, events) := data.push chunk
      let (data, more) := data.run chunks
      (data, events ++ more)

end PacketData

end Sdrmm.DabPacket
