import Sdrmm.Channels.DabFigures
import Sdrmm.Lib.Fields
import Sdrmm.Lib.Numerals

/-!
# What figures tell

Every figure is a sequence of writes to the fields of an ensemble, whatever the ensemble holds.  The functions of
the source never read outside their bytes, and do these writes one after another.
-/

namespace Sdrmm.Dab.Figures

open Lib.Checked (Halt index slice index_of_lt slice_of_le ok_bind)

/-! ## The fields of an ensemble -/

inductive ServiceField
  | id (value : ℕ)
  | label (value : Option String)
  | subchannel (value : Option ℕ)
  | audio (value : Audio)
  | data (value : Bool)
  | motApp (value : Option UInt8)
  | packetId (value : Option ℕ)
  | dataKind (value : UInt8)

namespace ServiceField

def set (service : Service) : ServiceField → Service
  | id value => { service with id := value }
  | label value => { service with label := value }
  | subchannel value => { service with subchannel := value }
  | audio value => { service with audio := value }
  | data value => { service with data := value }
  | motApp value => { service with motApp := value }
  | packetId value => { service with packetId := value }
  | dataKind value => { service with dataKind := value }

/-- Which field it is. -/
def place : ServiceField → Fin 8
  | id _ => 0
  | label _ => 1
  | subchannel _ => 2
  | audio _ => 3
  | data _ => 4
  | motApp _ => 5
  | packetId _ => 6
  | dataKind _ => 7

def Held (service : Service) : ServiceField → Prop
  | id value => service.id = value
  | label value => service.label = value
  | subchannel value => service.subchannel = value
  | audio value => service.audio = value
  | data value => service.data = value
  | motApp value => service.motApp = value
  | packetId value => service.packetId = value
  | dataKind value => service.dataKind = value

variable {field other : ServiceField} {service : Service}

theorem held_set (service : Service) (field : ServiceField) : field.Held (field.set service) := by
  cases field <;> rfl

theorem held_set_of_ne (hne : other.place ≠ field.place) :
    field.Held (other.set service) ↔ field.Held service := by
  cases field <;> cases other <;> first | exact absurd rfl hne | exact Iff.rfl

theorem eq_of_held (hplace : field.place = other.place) (hfield : field.Held service) (hother : other.Held service) :
    field = other := by
  cases field <;> cases other <;> first | exact congrArg _ (hfield.symm.trans hother) | simp [place] at hplace

theorem ext_held {one next : Service} (hsame : ∀ field : ServiceField, field.Held one ↔ field.Held next) :
    one = next := by
  have hid := (hsame (.id one.id)).mp rfl
  have hlabel := (hsame (.label one.label)).mp rfl
  have hsubchannel := (hsame (.subchannel one.subchannel)).mp rfl
  have haudio := (hsame (.audio one.audio)).mp rfl
  have hdata := (hsame (.data one.data)).mp rfl
  have hmotApp := (hsame (.motApp one.motApp)).mp rfl
  have hpacketId := (hsame (.packetId one.packetId)).mp rfl
  have hdataKind := (hsame (.dataKind one.dataKind)).mp rfl
  cases one
  cases next
  simp only [Held] at *
  simp only [*]

end ServiceField

inductive Update
  | id (value : ℕ)
  | label (value : Option String)
  | service (key : ℕ)
  | serviceField (key : ℕ) (field : ServiceField)
  | subchannel (key : ℕ) (value : SubChannel)
  | packet (key : ℕ) (value : PacketComponent)
  | fec (key : ℕ) (value : Bool)

inductive Field
  | id
  | label
  | service (key : ℕ)
  | serviceField (key : ℕ) (place : Fin 8)
  | subchannel (key : ℕ)
  | packet (key : ℕ)
  | fec (key : ℕ)
deriving DecidableEq

namespace Update

def field : Update → Field
  | id _ => .id
  | label _ => .label
  | service key => .service key
  | serviceField key field => .serviceField key field.place
  | subchannel key _ => .subchannel key
  | packet key _ => .packet key
  | fec key _ => .fec key

/-- A service is there once something is told of it. -/
def write (ensemble : Ensemble) : Update → Ensemble
  | id value => { ensemble with id := some value }
  | label value => { ensemble with label := value }
  | service key => ensemble.changeService key fun service ↦ service
  | serviceField key field => ensemble.changeService key fun service ↦ field.set service
  | subchannel key value => { ensemble with subchannels := ensemble.subchannels.insert key value }
  | packet key value => ensemble.insertPacket key value
  | fec key value => { ensemble with fec := ensemble.fec.insert key value }

/-- The ensemble has the value that is told already. -/
def Held (ensemble : Ensemble) : Update → Prop
  | id value => ensemble.id = some value
  | label value => ensemble.label = value
  | service key => ∃ service, ensemble.services.get? key = some service
  | serviceField key field => ∃ service, ensemble.services.get? key = some service ∧ field.Held service
  | subchannel key value => ensemble.subchannels.get? key = some value
  | packet key value => ensemble.packets.get? key = some value
  | fec key value => ensemble.fec.get? key = some value

/-- The service that the field belongs to is there. -/
def Known (ensemble : Ensemble) : Update → Prop
  | service key | serviceField key _ => ∃ service, ensemble.services.get? key = some service
  | _ => True

variable {ensemble : Ensemble}

theorem get?_changeService (id other : ℕ) (change : Service → Service) :
    (ensemble.changeService id change).services.get? other =
      if other = id then some (change ((ensemble.services.get? id).getD { id := id }))
      else ensemble.services.get? other := by
  split_ifs with heq
  · rw [heq]
    exact SortedMap.get?_insert_self
  · exact SortedMap.get?_insert_of_ne heq

theorem exists_changeService {id other : ℕ} {change : Service → Service}
    (hthere : ∃ service, ensemble.services.get? other = some service) :
    ∃ service, (ensemble.changeService id change).services.get? other = some service := by
  rw [get?_changeService]
  split_ifs
  · exact ⟨_, rfl⟩
  · exact hthere

theorem exists_of_changeService {id other : ℕ} {change : Service → Service}
    (hid : ∃ service, ensemble.services.get? id = some service)
    (hthere : ∃ service, (ensemble.changeService id change).services.get? other = some service) :
    ∃ service, ensemble.services.get? other = some service := by
  rw [get?_changeService] at hthere
  split_ifs at hthere with heq
  · rw [heq]
    exact hid
  · exact hthere

theorem held_write (ensemble : Ensemble) (update : Update) : Held (write ensemble update) update := by
  cases update with
  | id value => rfl
  | label value => rfl
  | service key => exact ⟨_, (get?_changeService ..).trans (if_pos rfl)⟩
  | serviceField key field => exact ⟨_, (get?_changeService ..).trans (if_pos rfl), field.held_set _⟩
  | subchannel key value => exact SortedMap.get?_insert_self
  | packet key value => exact SortedMap.get?_insert_self
  | fec key value => exact SortedMap.get?_insert_self

theorem known_write {update : Update} (other : Update) (hknown : Known ensemble update) :
    Known (write ensemble other) update := by
  cases update <;> cases other <;> first | exact hknown | exact exists_changeService hknown

theorem known_of_write {update other : Update} (hother : Known ensemble other)
    (hknown : Known (write ensemble other) update) : Known ensemble update := by
  cases update <;> cases other <;> first | exact hknown | exact exists_of_changeService hother hknown

theorem held_changeService {update : Update} {id : ℕ} {change : Service → Service} (hknown : Known ensemble update)
    (hkeep : ∀ field, update = serviceField id field → ∀ service, field.Held (change service) ↔ field.Held service) :
    Held (ensemble.changeService id change) update ↔ Held ensemble update := by
  cases update with
  | service key => exact ⟨fun _ ↦ hknown, fun hthere ↦ exists_changeService hthere⟩
  | serviceField key field =>
    rcases eq_or_ne key id with rfl | hother
    · obtain ⟨service, hservice⟩ := hknown
      simp only [Held, get?_changeService, if_true, hservice, Option.getD_some, Option.some_inj, exists_eq_left']
      exact hkeep field rfl service
    · simp only [Held, get?_changeService, if_neg hother]
  | id value => rfl
  | label value => rfl
  | subchannel key value => rfl
  | packet key value => rfl
  | fec key value => rfl

theorem held_insert_of_ne {α : Type} {map : SortedMap ℕ α} {key other : ℕ} {value last : α} (hne : key ≠ other) :
    (map.insert key value).get? other = some last ↔ map.get? other = some last := by
  rw [SortedMap.get?_insert_of_ne hne.symm]

/-- A write leaves the other fields as they are. -/
theorem held_write_of_ne {update other : Update} (hne : other.field ≠ update.field) (hknown : Known ensemble update) :
    Held (write ensemble other) update ↔ Held ensemble update := by
  cases other with
  | service key => exact held_changeService hknown fun _ _ _ ↦ Iff.rfl
  | serviceField key other =>
    apply held_changeService hknown
    rintro field rfl service
    exact ServiceField.held_set_of_ne fun heq ↦ hne (congrArg (Field.serviceField key) heq)
  | id value => cases update <;> first | exact absurd rfl hne | exact Iff.rfl
  | label value => cases update <;> first | exact absurd rfl hne | exact Iff.rfl
  | subchannel key value =>
    cases update with
    | subchannel other last => exact held_insert_of_ne fun heq ↦ hne (congrArg Field.subchannel heq)
    | _ => exact Iff.rfl
  | packet key value =>
    cases update with
    | packet other last => exact held_insert_of_ne fun heq ↦ hne (congrArg Field.packet heq)
    | _ => exact Iff.rfl
  | fec key value =>
    cases update with
    | fec other last => exact held_insert_of_ne fun heq ↦ hne (congrArg Field.fec heq)
    | _ => exact Iff.rfl

theorem known_of_held {update : Update} (hheld : Held ensemble update) : Known ensemble update := by
  cases update with
  | serviceField key field => exact ⟨hheld.choose, hheld.choose_spec.1⟩
  | service key => exact hheld
  | _ => trivial

theorem known_congr {update other : Update} (hfield : update.field = other.field) (hknown : Known ensemble update) :
    Known ensemble other := by
  cases other with
  | service key =>
    cases update with
    | service other => exact (Field.service.inj hfield) ▸ hknown
    | _ => cases hfield
  | serviceField key field =>
    cases update with
    | serviceField other field => exact (Field.serviceField.inj hfield).1 ▸ hknown
    | _ => cases hfield
  | _ => trivial

theorem eq_of_held {update other : Update} (hfield : update.field = other.field) (hupdate : Held ensemble update)
    (hother : Held ensemble other) : update = other := by
  cases update with
  | serviceField key field =>
    cases other with
    | serviceField name other =>
      obtain ⟨rfl, hplace⟩ := Field.serviceField.inj hfield
      obtain ⟨service, hservice, hheld⟩ := hupdate
      obtain ⟨same, hsame, hlast⟩ := hother
      cases hservice.symm.trans hsame
      rw [ServiceField.eq_of_held hplace hheld hlast]
    | _ => cases hfield
  | service key =>
    cases other with
    | service name => rw [Field.service.inj hfield]
    | _ => cases hfield
  | id value =>
    cases other with
    | id last => rw [Option.some_inj.mp (hupdate.symm.trans hother)]
    | _ => cases hfield
  | label value =>
    cases other with
    | label last => rw [hupdate.symm.trans hother]
    | _ => cases hfield
  | subchannel key value =>
    cases other with
    | subchannel name last =>
      cases Field.subchannel.inj hfield
      rw [Option.some_inj.mp (hupdate.symm.trans hother)]
    | _ => cases hfield
  | packet key value =>
    cases other with
    | packet name last =>
      cases Field.packet.inj hfield
      rw [Option.some_inj.mp (hupdate.symm.trans hother)]
    | _ => cases hfield
  | fec key value =>
    cases other with
    | fec name last =>
      cases Field.fec.inj hfield
      rw [Option.some_inj.mp (hupdate.symm.trans hother)]
    | _ => cases hfield

theorem ext_held {one next : Ensemble} (hsame : ∀ update, Held one update ↔ Held next update) : one = next := by
  have hid : one.id = next.id := Option.ext fun value ↦ hsame (id value)
  have hlabel : one.label = next.label := ((hsame (label one.label)).mp rfl).symm
  have hsubchannels : one.subchannels = next.subchannels :=
    SortedMap.ext_get? fun key ↦ Option.ext fun value ↦ hsame (subchannel key value)
  have hpackets : one.packets = next.packets :=
    SortedMap.ext_get? fun key ↦ Option.ext fun value ↦ hsame (packet key value)
  have hfec : one.fec = next.fec := SortedMap.ext_get? fun key ↦ Option.ext fun value ↦ hsame (fec key value)
  have hservices : one.services = next.services := by
    apply SortedMap.ext_get?
    intro key
    have hservice := hsame (service key)
    have hfields (field : ServiceField) := hsame (serviceField key field)
    simp only [Held] at hservice hfields
    cases hone : one.services.get? key with
    | none =>
      cases hnext : next.services.get? key with
      | none => rfl
      | some last =>
        rw [hone, hnext] at hservice
        exact absurd (hservice.mpr ⟨last, rfl⟩) nofun
    | some first =>
      obtain ⟨last, hlast⟩ := hservice.mp ⟨first, hone⟩
      rw [hone, hlast] at hfields
      simp only [Option.some_inj, exists_eq_left'] at hfields
      rw [hlast, ServiceField.ext_held hfields]
  cases one
  cases next
  simp only [Ensemble.mk.injEq]
  exact ⟨hid, hlabel, hservices, hsubchannels, hpackets, hfec⟩

theorem law : Fields.Law write field Held Known where
  held_write := held_write
  held_write_of_ne := held_write_of_ne
  known_of_held := known_of_held
  known_write := known_write
  known_of_write := known_of_write
  known_congr := known_congr
  unique := eq_of_held
  ext := ext_held

end Update

end Sdrmm.Dab.Figures
