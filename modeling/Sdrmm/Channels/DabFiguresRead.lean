import Sdrmm.Channels.DabFiguresTold

/-!
# Figures as sequences of writes

What each figure tells, as a list of writes that does not depend on the ensemble.  The function of the source
reads nothing outside the bytes of the figure and does these writes in their order.
-/

namespace Sdrmm.Dab.Figures

open Lib.Checked (Halt index slice index_of_lt slice_of_le ok_bind)

/-- The writes done one after another. -/
def Ensemble.after (ensemble : Ensemble) (updates : List Update) : Ensemble := updates.foldl Update.write ensemble

namespace Ensemble

variable {ensemble : Ensemble}

theorem after_append (ensemble : Ensemble) (first second : List Update) :
    ensemble.after (first ++ second) = (ensemble.after first).after second := List.foldl_append

theorem after_cons (ensemble : Ensemble) (update : Update) (rest : List Update) :
    ensemble.after (update :: rest) = (Update.write ensemble update).after rest := rfl

theorem changeService_changeService (ensemble : Ensemble) (id : ℕ) (first second : Service → Service) :
    (ensemble.changeService id first).changeService id second =
      ensemble.changeService id fun service ↦ second (first service) := by
  have hservices : ((ensemble.changeService id first).changeService id second).services =
      (ensemble.changeService id fun service ↦ second (first service)).services := by
    apply SortedMap.ext_get?
    intro key
    simp only [Update.get?_changeService, if_true, Option.getD_some]
    split_ifs <;> rfl
  exact congrArg (fun services ↦ { ensemble with services := services }) hservices

end Ensemble

/-! ## Simple figures -/

def informationUpdates (data : List UInt8) : List Update :=
  if 2 ≤ data.length then [.id (be16 (data.getD 0 0) (data.getD 1 0))] else []

theorem ensembleInformation_eq (ensemble : Ensemble) (data : List UInt8) :
    ensemble.ensembleInformation data = .ok (ensemble.after (informationUpdates data)) := by
  rw [Ensemble.ensembleInformation, informationUpdates]
  split_ifs with hlength
  · rw [index_of_lt (by omega) 0, ok_bind, index_of_lt (by omega) 0, ok_bind]
    rfl
  · rfl

def fecUpdates (data : List UInt8) : List Update :=
  data.map fun (entry : UInt8) ↦ .fec (entry >>> 2).toNat (entry &&& 3 == 1)

theorem fecSchemes_eq (ensemble : Ensemble) (data : List UInt8) :
    ensemble.fecSchemes data = ensemble.after (fecUpdates data) := by
  rw [Ensemble.fecSchemes, Ensemble.after, fecUpdates, List.foldl_map]
  rfl

/-! ## Sub-channels -/

def subchannelUpdates (data : List UInt8) (place : ℕ) : List Update :=
  if place + 3 ≤ data.length then
    if data.getD (place + 2) 0 &&& 0x80 ≠ 0 then
      if data.length < place + 4 then []
      else
        match longForm (data.getD place 0) (data.getD (place + 1) 0) (data.getD (place + 2) 0)
          (data.getD (place + 3) 0) with
        | none => []
        | some subchannel => .subchannel subchannel.id subchannel :: subchannelUpdates data (place + 4)
    else
      match shortForm (data.getD place 0) (data.getD (place + 1) 0) (data.getD (place + 2) 0) with
      | none => []
      | some subchannel => .subchannel subchannel.id subchannel :: subchannelUpdates data (place + 3)
  else []
termination_by data.length - place

theorem subchannelOrganization_eq (ensemble : Ensemble) (data : List UInt8) (place : ℕ) :
    ensemble.subchannelOrganization data place = .ok (ensemble.after (subchannelUpdates data place)) := by
  fun_induction subchannelUpdates data place generalizing ensemble with
  | case1 place hlength hlong hshort =>
    rw [Ensemble.subchannelOrganization, if_pos hlength, index_of_lt (by omega) 0, ok_bind, index_of_lt (by omega) 0,
      ok_bind, index_of_lt (by omega) 0, ok_bind, if_pos hlong, if_pos hshort]
    rfl
  | case2 place hlength hlong hshort hform =>
    rw [Ensemble.subchannelOrganization, if_pos hlength, index_of_lt (by omega) 0, ok_bind, index_of_lt (by omega) 0,
      ok_bind, index_of_lt (by omega) 0, ok_bind, if_pos hlong, if_neg hshort, index_of_lt (by omega) 0, ok_bind,
      hform]
    rfl
  | case3 place hlength hlong hshort subchannel hform ih =>
    rw [Ensemble.subchannelOrganization, if_pos hlength, index_of_lt (by omega) 0, ok_bind, index_of_lt (by omega) 0,
      ok_bind, index_of_lt (by omega) 0, ok_bind, if_pos hlong, if_neg hshort, index_of_lt (by omega) 0, ok_bind,
      hform]
    exact ih _
  | case4 place hlength hlong hform =>
    rw [Ensemble.subchannelOrganization, if_pos hlength, index_of_lt (by omega) 0, ok_bind, index_of_lt (by omega) 0,
      ok_bind, index_of_lt (by omega) 0, ok_bind, if_neg hlong, hform]
    rfl
  | case5 place hlength hlong subchannel hform ih =>
    rw [Ensemble.subchannelOrganization, if_pos hlength, index_of_lt (by omega) 0, ok_bind, index_of_lt (by omega) 0,
      ok_bind, index_of_lt (by omega) 0, ok_bind, if_neg hlong, hform]
    exact ih _
  | case6 place hlength =>
    rw [Ensemble.subchannelOrganization, if_neg hlength]
    rfl

/-! ## Services -/

/-- A service with some fields set. -/
def Service.with (service : Service) (fields : List ServiceField) : Service :=
  fields.foldl (fun service field ↦ field.set service) service

theorem after_fields (ensemble : Ensemble) (id : ℕ) (change : Service → Service) (fields : List ServiceField) :
    (ensemble.changeService id change).after (fields.map (.serviceField id)) =
      ensemble.changeService id fun service ↦ (change service).with fields := by
  induction fields generalizing change with
  | nil => rfl
  | cons field fields ih =>
    rw [List.map_cons, Ensemble.after_cons, Update.write, Ensemble.changeService_changeService, ih]
    rfl

def describeFields (high low : UInt8) : List ServiceField :=
  match (high >>> 6).toNat with
  | 0 => [.subchannel (some (low >>> 2).toNat), .audio (if high &&& 0x3F = 63 then .aacPlus else .mp2), .data false,
      .packetId none]
  | 1 => [.subchannel (some (low >>> 2).toNat), .data true, .dataKind (high &&& 63), .packetId none]
  | 3 => [.packetId (some ((high &&& 63).toNat <<< 6 ||| (low >>> 2).toNat)), .data true, .subchannel none]
  | _ => []

theorem describe_eq (high low : UInt8) (service : Service) :
    Ensemble.describe high low service = service.with (describeFields high low) := by
  rw [Ensemble.describe, describeFields]
  generalize (high >>> 6).toNat = transport
  match transport with
  | 0 | 1 | 2 | 3 => rfl
  | _ + 4 => rfl

def componentFields (data : List UInt8) (first number : ℕ) : List ServiceField :=
  if data.getD (first + 2 * number + 1) 0 &&& 0x02 ≠ 0 ∨ number = 0 then
    describeFields (data.getD (first + 2 * number) 0) (data.getD (first + 2 * number + 1) 0)
  else []

theorem component_eq {data : List UInt8} {first number : ℕ} (hlength : first + 2 * number + 2 ≤ data.length)
    (service : Service) :
    Ensemble.component data first service number = .ok (service.with (componentFields data first number)) := by
  have hslice : ((data.take (first + 2 * number + 2)).drop (first + 2 * number)).length = 2 := by
    rw [List.length_drop, List.length_take]
    omega
  have hat (i : ℕ) (hi : i < 2) : ((data.take (first + 2 * number + 2)).drop (first + 2 * number)).getD i 0 =
      data.getD (first + 2 * number + i) 0 := by
    rw [List.getD_eq_getElem?_getD, List.getElem?_drop, List.getElem?_take_of_lt (by omega),
      List.getD_eq_getElem?_getD]
  rw [Ensemble.component, slice_of_le (by omega) hlength, ok_bind, index_of_lt (by omega) 0, ok_bind,
    index_of_lt (by omega) 0, ok_bind, hat 0 (by decide), hat 1 (by decide), componentFields]
  split_ifs
  · exact congrArg Except.ok (describe_eq ..)
  · rfl

theorem components_eq {data : List UInt8} {first components : ℕ} (hlength : first + 2 * components ≤ data.length)
    (service : Service) :
    (List.range components).foldlM (Ensemble.component data first) service =
      .ok (service.with ((List.range components).flatMap (componentFields data first))) := by
  have hloop := Lib.Checked.foldlM_eq_foldl (Ensemble.component data first)
    (fun service number ↦ service.with (componentFields data first number)) (fun _ ↦ True) (List.range components)
    (fun number hnumber service _ ↦ ⟨component_eq (by
      have hlt := List.mem_range.mp hnumber
      omega) service, trivial⟩) (s := service) trivial
  rw [hloop.1, Service.with, List.foldl_flatMap]
  rfl

def idOf (data : List UInt8) (longIds : Bool) (place : ℕ) : ℕ :=
  if longIds then
    be32 (data.getD place 0) (data.getD (place + 1) 0) (data.getD (place + 2) 0) (data.getD (place + 3) 0)
  else be16 (data.getD place 0) (data.getD (place + 1) 0)

theorem serviceId_eq {data : List UInt8} {longIds : Bool} {place : ℕ}
    (hlength : place + Ensemble.idBytes longIds < data.length) :
    Ensemble.serviceId data longIds place = .ok (idOf data longIds place) := by
  rw [Ensemble.idBytes] at hlength
  rw [Ensemble.serviceId, idOf]
  split_ifs at hlength ⊢
  · rw [index_of_lt (by omega) 0, ok_bind, index_of_lt (by omega) 0, ok_bind, index_of_lt (by omega) 0, ok_bind,
      index_of_lt (by omega) 0, ok_bind]
    rfl
  · rw [index_of_lt (by omega) 0, ok_bind, index_of_lt (by omega) 0, ok_bind]
    rfl

/-- How many components a service has. -/
def componentCount (data : List UInt8) (longIds : Bool) (place : ℕ) : ℕ :=
  (data.getD (place + Ensemble.idBytes longIds) 0 &&& 0x0F).toNat

def serviceUpdates (data : List UInt8) (longIds : Bool) (place : ℕ) : List Update :=
  if place + Ensemble.idBytes longIds < data.length then
    if data.length < place + Ensemble.idBytes longIds + 1 + 2 * componentCount data longIds place then []
    else
      .service (idOf data longIds place) ::
        (((List.range (componentCount data longIds place)).flatMap
            (componentFields data (place + Ensemble.idBytes longIds + 1))).map
              (.serviceField (idOf data longIds place)) ++
          serviceUpdates data longIds
            (place + Ensemble.idBytes longIds + 1 + 2 * componentCount data longIds place))
  else []
termination_by data.length - place

theorem serviceOrganization_eq (ensemble : Ensemble) (data : List UInt8) (longIds : Bool) (place : ℕ) :
    ensemble.serviceOrganization data longIds place = .ok (ensemble.after (serviceUpdates data longIds place)) := by
  fun_induction serviceUpdates data longIds place generalizing ensemble with
  | case1 place hlength hshort =>
    rw [Ensemble.serviceOrganization, if_pos hlength, serviceId_eq hlength, ok_bind, index_of_lt hlength 0, ok_bind]
    exact if_pos hshort
  | case2 place hlength hlong ih =>
    rw [Ensemble.serviceOrganization, if_pos hlength, serviceId_eq hlength, ok_bind, index_of_lt hlength 0, ok_bind]
    apply (if_neg hlong).trans
    apply (congrArg (· >>= _) (components_eq (not_lt.mp hlong) _)).trans
    rw [ok_bind, Ensemble.after_cons, Ensemble.after_append, Update.write, after_fields]
    exact ih _
  | case3 place hlength =>
    rw [Ensemble.serviceOrganization, if_neg hlength]
    rfl

/-! ## Packets and applications -/

/-- The bytes of a packet component. -/
def packetBytes (bytes : List UInt8) : ℕ := if bytes.getD 1 0 &&& 1 ≠ 0 then 7 else 5

def packetUpdate (bytes : List UInt8) : Update :=
  .packet ((bytes.getD 0 0).toNat <<< 4 ||| (bytes.getD 1 0 >>> 4).toNat)
    { subchannel := (bytes.getD 3 0 >>> 2).toNat
      address := (bytes.getD 3 0 &&& 3).toNat <<< 8 ||| (bytes.getD 4 0).toNat
      kind := bytes.getD 2 0 &&& 63
      dataGroups := bytes.getD 2 0 &&& 128 = 0 }

def packetUpdates (bytes : List UInt8) : List Update :=
  if 5 ≤ bytes.length then
    if bytes.length < packetBytes bytes then []
    else packetUpdate bytes :: packetUpdates (bytes.drop (packetBytes bytes))
  else []
termination_by bytes.length
decreasing_by
  rw [List.length_drop, packetBytes]
  split <;> omega

theorem packetComponents_eq (ensemble : Ensemble) (bytes : List UInt8) :
    ensemble.packetComponents bytes = .ok (ensemble.after (packetUpdates bytes)) := by
  fun_induction packetUpdates bytes generalizing ensemble with
  | case1 bytes hlength hshort =>
    rw [Ensemble.packetComponents, if_pos hlength, index_of_lt (by omega) 0, ok_bind]
    exact if_pos hshort
  | case2 bytes hlength hlong ih =>
    rw [Ensemble.packetComponents, if_pos hlength, index_of_lt (by omega) 0, ok_bind]
    apply (if_neg hlong).trans
    rw [index_of_lt (by omega) 0, ok_bind, index_of_lt (by omega) 0, ok_bind, index_of_lt (by omega) 0, ok_bind,
      index_of_lt (by omega) 0, ok_bind]
    change (slice bytes (packetBytes bytes) bytes.length >>= _) = _
    rw [slice_of_le (not_lt.mp hlong) le_rfl, ok_bind]
    exact ih _
  | case3 bytes hlength =>
    rw [Ensemble.packetComponents, if_neg hlength]
    rfl

def applicationUpdates (id : ℕ) (component : UInt8) (kind : ℕ) (application : List UInt8) : List Update :=
  if kind = 2 ∧ component = 0 ∧ 2 ≤ application.length then
    if 4 ≤ application.getD 0 0 &&& 31 ∧ application.getD 0 0 &&& 31 ≤ 30 then
      [.serviceField id (.motApp (some (application.getD 0 0 &&& 31)))]
    else []
  else []

theorem userApplication_eq (ensemble : Ensemble) (id : ℕ) (component : UInt8) (kind : ℕ) (application : List UInt8) :
    ensemble.userApplication id component kind application =
      .ok (ensemble.after (applicationUpdates id component kind application)) := by
  rw [Ensemble.userApplication, applicationUpdates]
  split_ifs with hkind hmot
  · rw [index_of_lt (by omega) 0, ok_bind]
    exact if_pos hmot
  · rw [index_of_lt (by omega) 0, ok_bind]
    exact if_neg hmot
  · rfl

/-- The bytes from a place on. -/
theorem slice_rest {bytes : List UInt8} {low : ℕ} (hlow : low ≤ bytes.length) :
    slice bytes low bytes.length = .ok (bytes.drop low) := by
  rw [slice_of_le hlow le_rfl, List.take_length]

/-- The length of an application behind its two bytes. -/
def applicationBytes (bytes : List UInt8) : ℕ := (bytes.getD 1 0 &&& 31).toNat

def applicationsUpdates (id : ℕ) (component : UInt8) : List UInt8 → ℕ → List Update × Option ℕ
  | _, 0 => ([], some 0)
  | bytes, count + 1 =>
    if bytes.length < 2 then ([], none)
    else if bytes.length < 2 + applicationBytes bytes then ([], none)
    else
      let rest := applicationsUpdates id component (bytes.drop (2 + applicationBytes bytes)) count
      (applicationUpdates id component ((bytes.getD 0 0).toNat <<< 3 ||| (bytes.getD 1 0 >>> 5).toNat)
        ((bytes.drop 2).take (applicationBytes bytes)) ++ rest.1, rest.2.map (2 + applicationBytes bytes + ·))

theorem applications_eq (id : ℕ) (component : UInt8) (bytes : List UInt8) (count : ℕ) (ensemble : Ensemble) :
    Ensemble.applications id component bytes count ensemble =
      .ok (ensemble.after (applicationsUpdates id component bytes count).1,
        (applicationsUpdates id component bytes count).2) := by
  fun_induction applicationsUpdates id component bytes count generalizing ensemble with
  | case1 bytes => rfl
  | case2 bytes count hshort =>
    rw [Ensemble.applications, if_pos hshort]
    rfl
  | case3 bytes count hlong hshort =>
    rw [Ensemble.applications, if_neg hlong, index_of_lt (by omega) 0, ok_bind, index_of_lt (by omega) 0, ok_bind]
    exact if_pos hshort
  | case4 bytes count hlong hwhole rest ih =>
    rw [Ensemble.applications, if_neg hlong, index_of_lt (by omega) 0, ok_bind, index_of_lt (by omega) 0, ok_bind]
    apply (if_neg hwhole).trans
    apply (congrArg (· >>= _) (userApplication_eq ..)).trans
    rw [ok_bind]
    apply (congrArg (· >>= _) (slice_rest (not_lt.mp hwhole))).trans
    rw [ok_bind]
    apply (congrArg (· >>= _) (ih _)).trans
    rw [Ensemble.after_append]
    rfl

def userUpdates (bytes : List UInt8) (longIds : Bool) : List Update :=
  if Ensemble.idBytes longIds < bytes.length then
    let told := applicationsUpdates
      ((bytes.take (Ensemble.idBytes longIds)).foldl (fun id byte ↦ id <<< 8 ||| byte.toNat) 0)
      (bytes.getD (Ensemble.idBytes longIds) 0 >>> 4) (bytes.drop (Ensemble.idBytes longIds + 1))
      (bytes.getD (Ensemble.idBytes longIds) 0 &&& 15).toNat
    match told.2 with
    | none => told.1
    | some consumed => told.1 ++ userUpdates (bytes.drop (Ensemble.idBytes longIds + 1 + consumed)) longIds
  else []
termination_by bytes.length
decreasing_by
  rw [List.length_drop]
  omega

theorem userApplications_eq (ensemble : Ensemble) (bytes : List UInt8) (longIds : Bool) :
    ensemble.userApplications bytes longIds = .ok (ensemble.after (userUpdates bytes longIds)) := by
  fun_induction userUpdates bytes longIds generalizing ensemble with
  | case1 bytes hlength told hnone =>
    rw [Ensemble.userApplications, if_pos hlength, slice_of_le (Nat.zero_le _) hlength.le, ok_bind,
      index_of_lt hlength 0, ok_bind, slice_rest hlength, ok_bind, applications_eq, ok_bind, List.drop_zero]
    rw [show (applicationsUpdates _ _ _ _).2 = none from hnone]
    rfl
  | case2 bytes hlength told consumed hsome ih =>
    rw [Ensemble.userApplications, if_pos hlength, slice_of_le (Nat.zero_le _) hlength.le, ok_bind,
      index_of_lt hlength 0, ok_bind, slice_rest hlength, ok_bind, applications_eq, ok_bind, List.drop_zero]
    rw [show (applicationsUpdates _ _ _ _).2 = some consumed from hsome, Ensemble.after_append]
    exact ih _
  | case3 bytes hlength =>
    rw [Ensemble.userApplications, if_neg hlength]
    rfl

/-! ## Figures -/

def figureZeroUpdates : List UInt8 → List Update
  | [] => []
  | header :: data =>
    if header &&& 0xc0 ≠ 0 then []
    else
      match (header &&& 0x1F).toNat with
      | 0 => informationUpdates data
      | 1 => subchannelUpdates data 0
      | 2 => serviceUpdates data (header &&& 0x20 != 0) 0
      | 3 => packetUpdates data
      | 14 => fecUpdates data
      | 13 => userUpdates data (header &&& 0x20 != 0)
      | _ => []

theorem figureZero_eq (ensemble : Ensemble) (body : List UInt8) :
    ensemble.figureZero body = .ok (ensemble.after (figureZeroUpdates body)) := by
  cases body with
  | nil => rfl
  | cons header data =>
    rw [Ensemble.figureZero, figureZeroUpdates]
    split_ifs
    · rfl
    · generalize (header &&& 0x1F).toNat = extension
      split
      · exact ensembleInformation_eq ..
      · exact subchannelOrganization_eq ..
      · exact serviceOrganization_eq ..
      · exact packetComponents_eq ..
      · exact congrArg Except.ok (fecSchemes_eq ..)
      · exact userApplications_eq ..
      · first
        | rfl
        | (split <;> first | contradiction | rfl)

/-- The text of a label behind an identifier. -/
def labelOf (header : UInt8) (data : List UInt8) (place : ℕ) : Option String :=
  decodedLabel ((data.take (place + labelBytes)).drop place) (header >>> 4)

def ensembleLabelUpdates (header : UInt8) (data : List UInt8) : List Update :=
  if 2 + labelBytes ≤ data.length then
    [.id (be16 (data.getD 0 0) (data.getD 1 0)), .label (labelOf header data 2)]
  else []

def shortLabelUpdates (header : UInt8) (data : List UInt8) : List Update :=
  if 2 + labelBytes ≤ data.length then
    [.serviceField (be16 (data.getD 0 0) (data.getD 1 0)) (.label (labelOf header data 2))]
  else []

def longLabelUpdates (header : UInt8) (data : List UInt8) : List Update :=
  if 4 + labelBytes ≤ data.length then
    [.serviceField (be32 (data.getD 0 0) (data.getD 1 0) (data.getD 2 0) (data.getD 3 0))
      (.label (labelOf header data 4))]
  else []

def figureOneUpdates : List UInt8 → List Update
  | [] => []
  | header :: data =>
    if header &&& 0x08 ≠ 0 then []
    else
      match (header &&& 0x07).toNat with
      | 0 => ensembleLabelUpdates header data
      | 1 => shortLabelUpdates header data
      | 5 => longLabelUpdates header data
      | _ => []

theorem figureOne_eq (ensemble : Ensemble) (body : List UInt8) :
    ensemble.figureOne body = .ok (ensemble.after (figureOneUpdates body)) := by
  cases body with
  | nil => rfl
  | cons header data =>
    rw [Ensemble.figureOne, figureOneUpdates]
    rcases Decidable.em (header &&& 0x08 ≠ 0) with hother | hown
    · rw [if_pos hother, if_pos hother]
      rfl
    · rw [if_neg hown, if_neg hown]
      generalize (header &&& 0x07).toNat = extension
      split
      · change _ = Except.ok (ensemble.after (ensembleLabelUpdates header data))
        rw [ensembleLabelUpdates]
        split_ifs with hlength
        · rw [index_of_lt (by omega) 0, ok_bind, index_of_lt (by omega) 0, ok_bind,
            slice_of_le (Nat.le_add_right ..) hlength, ok_bind]
          rfl
        · rfl
      · change _ = Except.ok (ensemble.after (shortLabelUpdates header data))
        rw [shortLabelUpdates]
        split_ifs with hlength
        · rw [index_of_lt (by omega) 0, ok_bind, index_of_lt (by omega) 0, ok_bind,
            slice_of_le (Nat.le_add_right ..) hlength, ok_bind]
          rfl
        · rfl
      · change _ = Except.ok (ensemble.after (longLabelUpdates header data))
        rw [longLabelUpdates]
        split_ifs with hlength
        · rw [index_of_lt (by omega) 0, ok_bind, index_of_lt (by omega) 0, ok_bind, index_of_lt (by omega) 0, ok_bind,
            index_of_lt (by omega) 0, ok_bind, slice_of_le (Nat.le_add_right ..) hlength, ok_bind]
          rfl
        · rfl
      · first
        | rfl
        | (split <;> first | contradiction | rfl)

def figureUpdates (kind : UInt8) (body : List UInt8) : List Update :=
  match kind.toNat with
  | 0 => figureZeroUpdates body
  | 1 => figureOneUpdates body
  | _ => []

/-- A figure reads nothing outside its bytes and does its writes. -/
theorem figure_eq (ensemble : Ensemble) (kind : UInt8) (body : List UInt8) :
    ensemble.figure kind body = .ok (ensemble.after (figureUpdates kind body)) := by
  rw [Ensemble.figure, figureUpdates]
  generalize kind.toNat = number
  split
  · exact figureZero_eq ..
  · exact figureOne_eq ..
  · first
    | rfl
    | (split <;> first | contradiction | rfl)

end Sdrmm.Dab.Figures
