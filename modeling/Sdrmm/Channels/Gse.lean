import Sdrmm.Dsp.Crc

/-!
# Generic stream encapsulation

The receiver of `datv/dvbs2/gse.rs`, which takes the packets of a baseband field, joins fragments in
one of 256 slots and gives them up when they get too old.  An access outside a field and a subtraction
below zero are no result here, and neither is a loop that does not end within its field, so that a push
with a result had none of them.

`Sender` says which packets may stand in which fields: the fragments of a datagram in order, under an id
that no other datagram in flight has.
-/

namespace Sdrmm.Dvbs2

open Sdrmm.Dsp

/-! ## The receiver -/

def maxPdu : ℕ := 65535
def lifetime : ℕ := 255
def crcBytes : ℕ := 4
def totalBytes : ℕ := 2
def protocolBytes : ℕ := 2

structure GsePdu where
  protocol : ℕ
  label : List UInt8
  data : List UInt8
deriving DecidableEq

structure Fragment where
  label : List UInt8
  total : ℕ
  covered : List UInt8
  ttl : ℕ

structure GseMetrics where
  pdus : ℕ := 0
  fragments : ℕ := 0
  crcErrors : ℕ := 0
  dropped : ℕ := 0

structure Gse where
  partials : UInt8 → Option Fragment := fun _ ↦ none
  label : List UInt8 := []
  labelValid : Bool := false
  metrics : GseMetrics := {}

/-- A datagram that came out, with the fragment it was joined from. -/
inductive Delivery
  | whole (pdu : GsePdu)
  | joined (fragment : Fragment) (pdu : GsePdu)

def Delivery.pdu : Delivery → GsePdu
  | .whole pdu => pdu
  | .joined _ pdu => pdu

/-- The bytes from `start` up to `stop`. -/
def slice (bytes : List UInt8) (start stop : ℕ) : Option (List UInt8) :=
  if start ≤ stop ∧ stop ≤ bytes.length then some ((bytes.take stop).drop start) else none

/-- The datagram behind its extension headers, if they are known. -/
def skipExtensions (protocol : ℕ) (label data : List UInt8) : Option (Option GsePdu) :=
  if 0x0600 ≤ protocol then some (some ⟨protocol, label, data⟩)
  else if protocol / 256 = 0 then
    if protocol ≠ 1 ∨ data.length < 14 then some none
    else do
      let protocol := be16 (← data[12]?) (← data[13]?)
      let data ← slice data 14 data.length
      if protocol < 0x0600 then return none
      else return some ⟨protocol, label, data⟩
  else if data.length < protocol / 256 * 2 then some none
  else do
    let header ← slice data 0 (protocol / 256 * 2)
    let high ← header[protocol / 256 * 2 - 2]?
    let low ← header[protocol / 256 * 2 - 1]?
    skipExtensions (be16 high low) label (data.drop (protocol / 256 * 2))
termination_by data.length
decreasing_by
  rw [List.length_drop]
  omega

namespace Gse

/-- Whether the packet was taken, the receiver after it and what came out. -/
abbrev Outcome := Bool × Gse × List Delivery

def drop (gse : Gse) : Gse :=
  { gse with metrics := { gse.metrics with dropped := gse.metrics.dropped + 1 } }

def setPartial (gse : Gse) (id : UInt8) (fragment : Option Fragment) : Gse :=
  { gse with partials := fun other ↦ if other = id then fragment else gse.partials other }

def deliver (gse : Gse) (as : GsePdu → Delivery) (protocol : ℕ) (label data : List UInt8) :
    Option Outcome := do
  match ← skipExtensions protocol label data with
  | none => return (false, gse, [])
  | some pdu =>
      return (true, { gse with metrics := { gse.metrics with pdus := gse.metrics.pdus + 1 } },
        [as pdu])

def labelLength (labelType : ℕ) : Option ℕ :=
  if labelType = 0 then some 6
  else if labelType = 1 then some 3
  else if labelType = 2 then some 0
  else none

/-- The label of a packet, where its data begins and the receiver that keeps the label for the field. -/
def readLabel (gse : Gse) (labelType : ℕ) (body : List UInt8) (cursor : ℕ) :
    Option (List UInt8 × ℕ × Gse) :=
  match labelLength labelType with
  | some length =>
      (slice body cursor (cursor + length)).map fun taken ↦
        (taken, cursor + length, { gse with label := taken, labelValid := decide (0 < length) })
  | none => if gse.labelValid then some (gse.label, cursor, gse) else none

/-- The length that the first fragment of a datagram declares, and where it ends. -/
def readTotal (fin : Bool) (body : List UInt8) : Option (ℕ × ℕ) :=
  if fin then some (0, 0)
  else
    match body[0]?, body[1]? with
    | some high, some low => some (be16 high low, totalBytes)
    | _, _ => none

/-- A first fragment takes its slot. -/
def hold (gse : Gse) (id : UInt8) (protocol total : ℕ) (label data : List UInt8) : Outcome :=
  if total < protocolBytes + label.length + data.length ∨ maxPdu < total then (false, gse, [])
  else
    let gse := if (gse.partials id).isSome then gse.drop else gse
    let gse := { gse with metrics := { gse.metrics with fragments := gse.metrics.fragments + 1 } }
    (true, gse.setPartial id (some
      { label := label
        total := total
        covered := toBe16 total ++ toBe16 protocol ++ label ++ data
        ttl := lifetime }), [])

/-- A packet that starts a datagram; without an id it ends it too. -/
def begin (gse : Gse) (id : Option UInt8) (fin : Bool) (labelType : ℕ) (body : List UInt8) :
    Option Outcome :=
  match readTotal fin body with
  | none => some (false, gse, [])
  | some (total, cursor) =>
      match body[cursor]?, body[cursor + 1]? with
      | some high, some low =>
          match gse.readLabel labelType body (cursor + protocolBytes) with
          | none => some (false, gse, [])
          | some (label, cursor, gse) =>
              match slice body cursor body.length with
              | none => some (false, gse, [])
              | some data =>
                  if fin then
                    if maxPdu < data.length then some (false, gse, [])
                    else gse.deliver .whole (be16 high low) label data
                  else
                    match id with
                    | none => some (false, gse, [])
                    | some id => some (gse.hold id (be16 high low) total label data)
      | _, _ => some (false, gse, [])

/-- The last fragment of a datagram is in. -/
def finish (gse : Gse) (fragment : Fragment) : Option Outcome :=
  if fragment.covered.length ≠ totalBytes + fragment.total + crcBytes then some (false, gse, [])
  else if crc32Mpeg fragment.covered ≠ 0 then
    some (true, { gse with metrics := { gse.metrics with crcErrors := gse.metrics.crcErrors + 1 } }, [])
  else do
    let protocol := be16 (← fragment.covered[totalBytes]?) (← fragment.covered[totalBytes + 1]?)
    let data ← slice fragment.covered (totalBytes + protocolBytes + fragment.label.length)
      (fragment.covered.length - crcBytes)
    gse.deliver (.joined fragment) protocol fragment.label data

def extend (gse : Gse) (id : UInt8) (fin : Bool) (body : List UInt8) : Option Outcome :=
  match gse.partials id with
  | none => some (false, gse, [])
  | some fragment =>
      if totalBytes + fragment.total + crcBytes < fragment.covered.length + body.length then
        some (false, gse.setPartial id none, [])
      else
        let fragment := { fragment with covered := fragment.covered ++ body }
        let gse := { gse with metrics := { gse.metrics with fragments := gse.metrics.fragments + 1 } }
        if !fin then some (true, gse.setPartial id (some fragment), [])
        else (gse.setPartial id none).finish fragment

def unit (gse : Gse) (start fin : Bool) (labelType : ℕ) (body : List UInt8) : Option Outcome :=
  if start && fin then gse.begin none fin labelType body
  else
    match body[0]? with
    | none => some (false, gse, [])
    | some id => do
        let rest ← slice body 1 body.length
        if start then gse.begin (some id) fin labelType rest
        else if labelType = 3 then gse.extend id fin rest
        else return (false, gse, [])

/-- Every fragment gets older by one push, and those that are too old are given up. -/
def expire (gse : Gse) : Option Gse :=
  let ids := (List.range 256).map UInt8.ofNat
  if ids.any fun id ↦ (gse.partials id).any fun fragment ↦ fragment.ttl == 0 then none
  else
    some { gse with
      partials := fun id ↦ (gse.partials id).bind fun fragment ↦
        if fragment.ttl - 1 = 0 then none else some { fragment with ttl := fragment.ttl - 1 }
      metrics := { gse.metrics with dropped := gse.metrics.dropped +
        (ids.filter fun id ↦ (gse.partials id).any fun fragment ↦ fragment.ttl == 1).length } }

/-- The packets of a field from `at₀` on. -/
def packets (field : List UInt8) : ℕ → ℕ → Gse → Option (Gse × List Delivery)
  | 0, _, _ => none
  | fuel + 1, at₀, gse =>
      if at₀ + 2 ≤ field.length then do
        let word := be16 (← field[at₀]?) (← field[at₀ + 1]?)
        let length := word % 0x1000
        if word = 0 then return (gse, [])
        else if length = 0 ∨ field.length < at₀ + 2 + length then return (gse.drop, [])
        else
          let body ← slice field (at₀ + 2) (at₀ + 2 + length)
          let (kept, gse, out) ← gse.unit (word / 0x8000 % 2 = 1) (word / 0x4000 % 2 = 1)
            (word / 0x1000 % 4) body
          let (gse, more) ← packets field fuel (at₀ + 2 + length) (if kept then gse else gse.drop)
          return (gse, out ++ more)
      else some (gse, [])

def push (gse : Gse) (field : List UInt8) : Option (Gse × List Delivery) := do
  let (gse, out) ← packets field (field.length + 1) 0 { gse with labelValid := false }
  return (← gse.expire, out)

/-- A sequence of pushes with all that comes out. -/
def run (gse : Gse) : List (List UInt8) → Option (Gse × List Delivery)
  | [] => some (gse, [])
  | field :: fields => do
      let (gse, out) ← gse.push field
      let (gse, more) ← gse.run fields
      return (gse, out ++ more)

end Gse

/-! ## The sender -/

/-- A datagram that can be sent. -/
structure Pdu extends GsePdu where
  protocol_ge : 0x0600 ≤ protocol
  protocol_lt : protocol < 0x10000
  label_length : label.length = 0 ∨ label.length = 3 ∨ label.length = 6
  total_le : protocolBytes + label.length + data.length ≤ maxPdu

namespace Pdu

def labelType (pdu : Pdu) : ℕ :=
  if pdu.label.length = 6 then 0 else if pdu.label.length = 3 then 1 else 2

def total (pdu : Pdu) : ℕ := protocolBytes + pdu.label.length + pdu.data.length

/-- What the check is taken over, up to some of the data. -/
def covered (pdu : Pdu) (data : List UInt8) : List UInt8 :=
  toBe16 pdu.total ++ toBe16 pdu.protocol ++ pdu.label ++ data

def check (pdu : Pdu) : List UInt8 := toBe32 (crc32Mpeg (pdu.covered pdu.data)).toNat

end Pdu

/-- A packet: a whole datagram or a piece of one.  The label may be left out where the field has it. -/
inductive Packet
  | whole (pdu : Pdu) (reuse : Bool)
  | first (id : UInt8) (pdu : Pdu) (reuse : Bool) (piece : List UInt8)
  | middle (id : UInt8) (piece : List UInt8)
  | last (id : UInt8) (piece : List UInt8)

/-- A datagram in flight: the data that was sent and the fields since. -/
structure Flight where
  pdu : Pdu
  sent : List UInt8
  age : ℕ

structure Sender where
  flying : UInt8 → Option Flight := fun _ ↦ none
  label : Option (List UInt8) := none
  started : List Pdu := []
  completed : List Pdu := []

def encodePacket (start fin : Bool) (labelType : ℕ) (body : List UInt8) : List UInt8 :=
  toBe16 ((if start then 0x8000 else 0) + (if fin then 0x4000 else 0) + labelType * 0x1000 +
    body.length) ++ body

namespace Sender

def setFlying (sender : Sender) (id : UInt8) (flight : Option Flight) : Sender :=
  { sender with flying := fun other ↦ if other = id then flight else sender.flying other }

/-- The label a field has behind a packet with a label of its own. -/
def useLabel (sender : Sender) (pdu : Pdu) (reuse : Bool) : Sender :=
  { sender with label :=
      if reuse then sender.label else if pdu.label = [] then none else some pdu.label }

/-- The bytes of a packet and the sender behind it, if the packet may stand here. -/
def send (sender : Sender) : Packet → Option (List UInt8 × Sender)
  | .whole pdu reuse =>
      let body := toBe16 pdu.protocol ++ (if reuse then [] else pdu.label) ++ pdu.data
      if (reuse → sender.label = some pdu.label) ∧ body.length < 0x1000 then
        some (encodePacket true true (if reuse then 3 else pdu.labelType) body,
          { sender.useLabel pdu reuse with
            started := sender.started ++ [pdu], completed := sender.completed ++ [pdu] })
      else none
  | .first id pdu reuse piece =>
      let body := id :: (toBe16 pdu.total ++ toBe16 pdu.protocol ++
        (if reuse then [] else pdu.label) ++ piece)
      if (reuse → sender.label = some pdu.label) ∧ body.length < 0x1000 ∧
          piece.isPrefixOf pdu.data ∧ (sender.flying id).isNone then
        some (encodePacket true false (if reuse then 3 else pdu.labelType) body,
          { (sender.useLabel pdu reuse).setFlying id (some ⟨pdu, piece, 0⟩) with
            started := sender.started ++ [pdu] })
      else none
  | .middle id piece =>
      match sender.flying id with
      | none => none
      | some flight =>
          if (id :: piece).length < 0x1000 ∧ (flight.sent ++ piece).isPrefixOf flight.pdu.data then
            some (encodePacket false false 3 (id :: piece),
              sender.setFlying id (some { flight with sent := flight.sent ++ piece }))
          else none
  | .last id piece =>
      match sender.flying id with
      | none => none
      | some flight =>
          if (id :: (piece ++ flight.pdu.check)).length < 0x1000 ∧
              flight.sent ++ piece = flight.pdu.data then
            some (encodePacket false true 3 (id :: (piece ++ flight.pdu.check)),
              { sender.setFlying id none with completed := sender.completed ++ [flight.pdu] })
          else none

def sendPackets (sender : Sender) : List Packet → Option (List UInt8 × Sender)
  | [] => some ([], sender)
  | packet :: packets => do
      let (bytes, sender) ← sender.send packet
      let (more, sender) ← sender.sendPackets packets
      return (bytes ++ more, sender)

/-- A field is over.  A datagram that is still in flight then has been so for fewer pushes than a
fragment lives. -/
def endField (sender : Sender) : Option Sender :=
  if (List.range 256).any fun id ↦ (sender.flying (UInt8.ofNat id)).any fun flight ↦
      decide (lifetime ≤ flight.age + 1) then none
  else
    some { sender with
      flying := fun id ↦ (sender.flying id).map fun flight ↦ { flight with age := flight.age + 1 } }

/-- Packets and padding make a field. -/
def sendFields (sender : Sender) : List (List Packet × ℕ) → Option (List (List UInt8) × Sender)
  | [] => some ([], sender)
  | (packets, padding) :: fields => do
      let (bytes, sender) ← { sender with label := none }.sendPackets packets
      let sender ← sender.endField
      let (more, sender) ← sender.sendFields fields
      return ((bytes ++ List.replicate padding 0) :: more, sender)

end Sender

end Sdrmm.Dvbs2
