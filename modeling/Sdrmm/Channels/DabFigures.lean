import Sdrmm.Channels.DabFig
import Sdrmm.Channels.MotHeader
import Sdrmm.Lib.Checked
import Mathlib.Data.List.DropRight

/-!
# Figures of the fast information channel

`Ensemble::absorb` of `channels/src/dab/fig.rs` with everything it tells of an ensemble.  Every index and every
slice of the source is one that may be out of range here, so that a function that reads outside its bytes has no
result.
-/

namespace Sdrmm.Dab.Figures

open Lib.Checked (Halt index slice)

inductive Audio
  | mp2 | aacPlus
deriving DecidableEq

structure Service where
  id : ℕ
  label : Option String := none
  subchannel : Option ℕ := none
  audio : Audio := .mp2
  data : Bool := false
  motApp : Option UInt8 := none
  packetId : Option ℕ := none
  dataKind : UInt8 := 0
deriving DecidableEq

structure PacketComponent where
  subchannel : ℕ
  address : ℕ
  kind : UInt8
  dataGroups : Bool
deriving DecidableEq

structure Ensemble where
  id : Option ℕ
  label : Option String
  services : SortedMap ℕ Service
  subchannels : SortedMap ℕ SubChannel
  packets : SortedMap ℕ PacketComponent
  fec : SortedMap ℕ Bool

def labelBytes : ℕ := 16

/-- A text without the spaces and zeros at its end, if anything is left of it. -/
def decodedLabel (bytes : List UInt8) (charset : UInt8) : Option String :=
  match Mot.text bytes charset with
  | .error _ => none
  | .ok text =>
    let trimmed := String.ofList (text.toList.rdropWhile fun c ↦ c = ' ' ∨ c = Char.ofNat 0)
    if trimmed = "" then none else some trimmed

/-- A number of four bytes, the highest first. -/
def be32 (a b c d : UInt8) : ℕ := be16 a b * 65536 + be16 c d

namespace Ensemble

def empty : Ensemble := ⟨none, none, .empty, .empty, .empty, .empty⟩

/-- `entry(id).or_insert_with(..)`, and what is done to the service. -/
def changeService (ensemble : Ensemble) (id : ℕ) (change : Service → Service) : Ensemble :=
  { ensemble with services := ensemble.services.insert id (change ((ensemble.services.get? id).getD { id := id })) }

def insertSubchannel (ensemble : Ensemble) (subchannel : SubChannel) : Ensemble :=
  { ensemble with subchannels := ensemble.subchannels.insert subchannel.id subchannel }

def insertPacket (ensemble : Ensemble) (id : ℕ) (component : PacketComponent) : Ensemble :=
  { ensemble with packets := ensemble.packets.insert id component }

def ensembleInformation (ensemble : Ensemble) (data : List UInt8) : Except Halt Ensemble :=
  if 2 ≤ data.length then do
    let high ← index data 0
    let low ← index data 1
    return { ensemble with id := some (be16 high low) }
  else return ensemble

def subchannelOrganization (ensemble : Ensemble) (data : List UInt8) (place : ℕ) : Except Halt Ensemble :=
  if place + 3 ≤ data.length then do
    let first ← index data place
    let second ← index data (place + 1)
    let third ← index data (place + 2)
    if third &&& 0x80 ≠ 0 then
      if data.length < place + 4 then return ensemble
      else
        let fourth ← index data (place + 3)
        match longForm first second third fourth with
        | none => return ensemble
        | some subchannel => (ensemble.insertSubchannel subchannel).subchannelOrganization data (place + 4)
    else
      match shortForm first second third with
      | none => return ensemble
      | some subchannel => (ensemble.insertSubchannel subchannel).subchannelOrganization data (place + 3)
  else return ensemble
termination_by data.length - place

/-- What a component tells of its service, if it is the primary one or the first. -/
def describe (high low : UInt8) (service : Service) : Service :=
  match (high >>> 6).toNat with
  | 0 => { service with subchannel := some (low >>> 2).toNat,
                        audio := if high &&& 0x3F = 63 then .aacPlus else .mp2, data := false, packetId := none }
  | 1 => { service with subchannel := some (low >>> 2).toNat, data := true, dataKind := high &&& 63,
                        packetId := none }
  | 3 => { service with packetId := some ((high &&& 63).toNat <<< 6 ||| (low >>> 2).toNat), data := true,
                        subchannel := none }
  | _ => service

def component (data : List UInt8) (first : ℕ) (service : Service) (number : ℕ) : Except Halt Service := do
  let descriptor ← slice data (first + 2 * number) (first + 2 * number + 2)
  let high ← index descriptor 0
  let low ← index descriptor 1
  if low &&& 0x02 ≠ 0 ∨ number = 0 then return describe high low service else return service

/-- The length of an identifier. -/
def idBytes (longIds : Bool) : ℕ := if longIds then 4 else 2

def serviceId (data : List UInt8) (longIds : Bool) (place : ℕ) : Except Halt ℕ :=
  if longIds then do
    return be32 (← index data place) (← index data (place + 1)) (← index data (place + 2)) (← index data (place + 3))
  else do return be16 (← index data place) (← index data (place + 1))

def serviceOrganization (ensemble : Ensemble) (data : List UInt8) (longIds : Bool) (place : ℕ) :
    Except Halt Ensemble :=
  let identifier := idBytes longIds
  if place + identifier < data.length then do
    let id ← serviceId data longIds place
    let count ← index data (place + identifier)
    let components := (count &&& 0x0F).toNat
    let first := place + identifier + 1
    if data.length < first + 2 * components then return ensemble
    else
      let service := (ensemble.services.get? id).getD { id := id }
      let service ← (List.range components).foldlM (component data first) service
      { ensemble with services := ensemble.services.insert id service }.serviceOrganization data longIds
        (first + 2 * components)
  else return ensemble
termination_by data.length - place

def packetComponents (ensemble : Ensemble) (bytes : List UInt8) : Except Halt Ensemble :=
  if 5 ≤ bytes.length then do
    let second ← index bytes 1
    let length := if second &&& 1 ≠ 0 then 7 else 5
    if bytes.length < length then return ensemble
    else
      let first ← index bytes 0
      let third ← index bytes 2
      let fourth ← index bytes 3
      let fifth ← index bytes 4
      let _rest ← slice bytes length bytes.length
      (ensemble.insertPacket (first.toNat <<< 4 ||| (second >>> 4).toNat)
        { subchannel := (fourth >>> 2).toNat, address := (fourth &&& 3).toNat <<< 8 ||| fifth.toNat,
          kind := third &&& 63, dataGroups := third &&& 128 = 0 }).packetComponents (bytes.drop length)
  else return ensemble
termination_by bytes.length
decreasing_by
  rw [List.length_drop]
  split <;> omega

def userApplication (ensemble : Ensemble) (id : ℕ) (component : UInt8) (kind : ℕ) (application : List UInt8) :
    Except Halt Ensemble :=
  if kind = 2 ∧ component = 0 ∧ 2 ≤ application.length then do
    let first ← index application 0
    let app := first &&& 31
    if 4 ≤ app ∧ app ≤ 30 then
      return ensemble.changeService id fun service ↦ { service with motApp := some app }
    else return ensemble
  else return ensemble

/-- The applications of a component, with how many bytes they are, if they are all there. -/
def applications (id : ℕ) (component : UInt8) : List UInt8 → ℕ → Ensemble → Except Halt (Ensemble × Option ℕ)
  | _, 0, ensemble => return (ensemble, some 0)
  | bytes, count + 1, ensemble =>
    if bytes.length < 2 then return (ensemble, none)
    else do
      let first ← index bytes 0
      let second ← index bytes 1
      let kind := first.toNat <<< 3 ||| (second >>> 5).toNat
      let length := (second &&& 31).toNat
      if bytes.length < 2 + length then return (ensemble, none)
      else
        let application := (bytes.drop 2).take length
        let ensemble ← ensemble.userApplication id component kind application
        let rest ← slice bytes (2 + length) bytes.length
        let (ensemble, consumed) ← applications id component rest count ensemble
        return (ensemble, consumed.map (2 + length + ·))

def userApplications (ensemble : Ensemble) (bytes : List UInt8) (longIds : Bool) : Except Halt Ensemble :=
  let width := idBytes longIds
  if width < bytes.length then do
    let digits ← slice bytes 0 width
    let id := digits.foldl (fun id byte ↦ id <<< 8 ||| byte.toNat) 0
    let control ← index bytes width
    let rest ← slice bytes (width + 1) bytes.length
    match ← applications id (control >>> 4) rest (control &&& 15).toNat ensemble with
    | (ensemble, none) => return ensemble
    | (ensemble, some consumed) => ensemble.userApplications (bytes.drop (width + 1 + consumed)) longIds
  else return ensemble
termination_by bytes.length
decreasing_by
  rw [List.length_drop]
  omega

/-- Which schemes of error correction packets have. -/
def fecSchemes (ensemble : Ensemble) (data : List UInt8) : Ensemble :=
  data.foldl (fun ensemble (entry : UInt8) ↦
    { ensemble with fec := ensemble.fec.insert (entry >>> 2).toNat (entry &&& 3 == 1) }) ensemble

def figureZero (ensemble : Ensemble) : List UInt8 → Except Halt Ensemble
  | [] => return ensemble
  | header :: data =>
    if header &&& 0xc0 ≠ 0 then return ensemble
    else
      let longIds : Bool := header &&& 0x20 != 0
      match (header &&& 0x1F).toNat with
      | 0 => ensemble.ensembleInformation data
      | 1 => ensemble.subchannelOrganization data 0
      | 2 => ensemble.serviceOrganization data longIds 0
      | 3 => ensemble.packetComponents data
      | 14 => return ensemble.fecSchemes data
      | 13 => ensemble.userApplications data longIds
      | _ => return ensemble

def figureOne (ensemble : Ensemble) : List UInt8 → Except Halt Ensemble
  | [] => return ensemble
  | header :: data =>
    if header &&& 0x08 ≠ 0 then return ensemble
    else
      match (header &&& 0x07).toNat with
      | 0 =>
        if 2 + labelBytes ≤ data.length then do
          let id := be16 (← index data 0) (← index data 1)
          return { ensemble with id := some id,
                                 label := decodedLabel (← slice data 2 (2 + labelBytes)) (header >>> 4) }
        else return ensemble
      | 1 =>
        if 2 + labelBytes ≤ data.length then do
          let id := be16 (← index data 0) (← index data 1)
          let text := decodedLabel (← slice data 2 (2 + labelBytes)) (header >>> 4)
          return ensemble.changeService id fun service ↦ { service with label := text }
        else return ensemble
      | 5 =>
        if 4 + labelBytes ≤ data.length then do
          let id := be32 (← index data 0) (← index data 1) (← index data 2) (← index data 3)
          let text := decodedLabel (← slice data 4 (4 + labelBytes)) (header >>> 4)
          return ensemble.changeService id fun service ↦ { service with label := text }
        else return ensemble
      | _ => return ensemble

/-- A figure of a kind. -/
def figure (ensemble : Ensemble) (kind : UInt8) (body : List UInt8) : Except Halt Ensemble :=
  match kind.toNat with
  | 0 => ensemble.figureZero body
  | 1 => ensemble.figureOne body
  | _ => return ensemble

/-- The figures of a block from a place on. -/
def absorbFrom (fib : List UInt8) (ensemble : Ensemble) (place : ℕ) : Except Halt Ensemble :=
  if place < fibBytes - 2 then do
    let header ← index fib place
    if header = endMarker then return ensemble
    else
      let length := (header &&& 0x1F).toNat
      if fib.length < place + 1 + length ∨ length = 0 then return ensemble
      else
        let ensemble ← ensemble.figure (header >>> 5) ((fib.drop (place + 1)).take length)
        absorbFrom fib ensemble (place + 1 + length)
  else return ensemble
termination_by fibBytes - 2 - place

def absorb (ensemble : Ensemble) (fib : Vector UInt8 fibBytes) : Except Halt Ensemble :=
  absorbFrom fib.toList ensemble 0

end Ensemble

end Sdrmm.Dab.Figures
