import Sdrmm.Channels.Mot

/-!
# MOT objects come out whole, once and unmixed

A data group of a sender is read back as the segment it carries.  An entity holds the segments of a window
of the input as long as no two of them conflict, and it is assembled when the numbers up to its last
segment are all there, whatever order they came in.
-/

namespace Sdrmm.Mot

/-! ## Reading what a sender writes -/

section Read

theorem crcOk_append (fields : List UInt8) :
    crcOk (fields ++ toBe16 (~~~Dsp.crc16Msb 0x1021 0xffff fields).toNat) = true := by
  have hlength : (fields ++ toBe16 (~~~Dsp.crc16Msb 0x1021 0xffff fields).toNat).length - 2 =
      fields.length := by
    rw [List.length_append, toBe16, List.length_cons, List.length_singleton, Nat.add_sub_cancel]
  rw [crcOk, hlength, List.drop_left, List.take_left, toBe16]
  simp only [beq_iff_eq]
  rw [be16_toBe16 (UInt16.toNat_lt _)]

namespace Group

theorem flags_bits : ∀ extension crc header,
    (flags extension crc header &&& 0x40 != 0) = crc ∧
    (flags extension crc header &&& 0x80 != 0) = extension ∧
    (flags extension crc header &&& 0x20 != 0) = true ∧
    (flags extension crc header &&& 0x10 != 0) = true ∧
    Kind.ofCode (flags extension crc header &&& 0x0f) = if header then .header else .body := by
  decide

theorem access_bits : ∀ (reserved : Fin 8) (length : Fin 16),
    (access reserved length &&& 0x0f).toNat = length ∧ access reserved length &&& 0x10 ≠ 0 := by
  decide

variable (group : Group)

theorem kind_eq : (if decide (group.kind = .header) then Kind.header else .body) = group.kind := by
  cases hkind : group.kind with
  | header => rfl
  | body => rfl
  | unsupported => exact absurd hkind group.supported

theorem checkedFields_encode :
    DataGroup.checkedFields group.encode group.crc = .ok group.fields := by
  unfold DataGroup.checkedFields encode
  cases group.crc with
  | false => rfl
  | true =>
    simp only [Bool.not_true, Bool.false_eq_true, if_false, if_true, crcOk_append]
    rw [List.length_append, toBe16, List.length_cons, List.length_singleton, Nat.add_sub_cancel,
      List.take_left]

theorem skipExtension_field (rest : List UInt8) :
    DataGroup.skipExtension (group.extensionField ++ rest) group.extension.isSome = .ok rest := by
  unfold DataGroup.skipExtension extensionField
  cases group.extension with
  | none => rfl
  | some bytes => rfl

theorem segmentField_number (rest : List UInt8) :
    DataGroup.segmentField
      (toBe16 (group.number + if group.last then 0x8000 else 0) ++ rest) true =
        .ok (some ⟨group.number, group.last⟩, rest) := by
  have hnumber := group.number_lt
  unfold DataGroup.segmentField
  simp only [toBe16, Bool.not_true, Bool.false_eq_true, if_false, List.cons_append, List.nil_append]
  cases group.last with
  | true =>
    rw [if_pos rfl, be16_toBe16 (by omega), Nat.add_mod_right, Nat.mod_eq_of_lt hnumber,
      decide_eq_true (Nat.le_add_left _ _)]
  | false =>
    rw [if_neg (by decide), Nat.add_zero, be16_toBe16 (by omega), Nat.mod_eq_of_lt hnumber,
      decide_eq_false (by omega)]

theorem userAccess_field (rest : List UInt8) :
    DataGroup.userAccess (group.accessField ++ rest) true = .ok (some group.transportId, rest) := by
  have haddress := group.address_le
  obtain ⟨hlength, hflag⟩ := access_bits group.reserved ⟨2 + group.address.length, by omega⟩
  have hlong : ¬(toBe16 group.transportId ++ group.address ++ rest).length <
      2 + group.address.length := by
    simp only [toBe16, List.length_append, List.length_cons, List.length_nil]
    omega
  have htake : (toBe16 group.transportId ++ group.address ++ rest).take (2 + group.address.length) =
      toBe16 group.transportId ++ group.address := by
    rw [show 2 + group.address.length = (toBe16 group.transportId ++ group.address).length by
      rw [List.length_append, toBe16]; rfl, List.take_left]
  have hdrop : (toBe16 group.transportId ++ group.address ++ rest).drop (2 + group.address.length) =
      rest := by
    rw [show 2 + group.address.length = (toBe16 group.transportId ++ group.address).length by
      rw [List.length_append, toBe16]; rfl, List.drop_left]
  unfold DataGroup.userAccess
  simp only [accessField, List.cons_append, Bool.not_true, Bool.false_eq_true, if_false]
  simp only [hlength, if_neg hflag, if_neg hlong, htake, hdrop]
  rw [toBe16, List.cons_append, List.cons_append]
  simp only [be16_toBe16 group.transportId_lt]

theorem segmentPayload_segmentation : segmentPayload group.segmentation = .ok group.payload := by
  have hpayload := group.payload_le
  have hrepetition := group.repetition.isLt
  rw [segmentation, toBe16, List.cons_append, List.cons_append, List.nil_append, segmentPayload,
    be16_toBe16 (by omega), if_neg (by omega)]

theorem parse_encode : DataGroup.parse group.encode =
    .ok ⟨group.kind, some ⟨group.number, group.last⟩, some group.transportId, group.segmentation⟩ := by
  obtain ⟨hcrc, hextension, hsegment, haccess, hkind⟩ :=
    flags_bits group.extension.isSome group.crc (group.kind = .header)
  have hchecked := group.checkedFields_encode
  obtain ⟨tail, htail⟩ : ∃ tail, group.encode =
      flags group.extension.isSome group.crc (group.kind = .header) :: tail := by
    by_cases hcheck : group.crc
    · exact ⟨_, by rw [encode, if_pos hcheck, fields, List.cons_append]⟩
    · exact ⟨_, by rw [encode, if_neg hcheck, fields]⟩
  rw [htail] at hchecked ⊢
  rw [DataGroup.parse, hcrc, hchecked, hextension, hsegment, haccess, hkind, kind_eq]
  simp only [fields, bind, Except.bind, List.length_cons, List.drop_succ_cons, List.drop_zero]
  rw [if_neg (by omega)]
  simp only [pure, Except.pure, skipExtension_field, segmentField_number, userAccess_field]

theorem read_encode : Segment.read group.encode = .ok (some group.carried) := by
  rw [Segment.read, parse_encode]
  simp only [bind, Except.bind, if_neg group.supported, segmentPayload_segmentation]
  rfl

end Group

end Read

/-! ## Entities -/

/-- Two copies of a segment that differ, or a segment behind the last one. -/
def Segment.Conflicts (a b : Segment) : Prop :=
  a.kind = b.kind ∧ (a.segment.number = b.segment.number ∧ a.payload ≠ b.payload ∨
    a.segment.last = true ∧ a.segment.number < b.segment.number)

theorem Segment.not_conflicts_self (a : Segment) : ¬a.Conflicts a := by
  rintro ⟨-, ⟨-, hne⟩ | ⟨-, hlt⟩⟩
  · exact hne rfl
  · exact lt_irrefl _ hlt

/-- No two of the segments conflict. -/
def Agree (segments : List Segment) : Prop :=
  ∀ a ∈ segments, ∀ b ∈ segments, ¬a.Conflicts b

/-- The entity holds the segments of its kind. -/
structure Entity.Holds (entity : Entity) (kind : Kind) (segments : List Segment) : Prop where
  parts : ∀ number data, entity.segments.get? number = some data ↔
    ∃ segment ∈ segments, segment.kind = kind ∧ segment.segment.number = number ∧
      segment.payload = data
  last : ∀ number, entity.last = some number ↔
    ∃ segment ∈ segments, segment.kind = kind ∧ segment.segment.last = true ∧
      segment.segment.number = number

namespace Entity

theorem holds_empty (kind : Kind) : Holds {} kind [] where
  parts number data := by
    constructor
    · exact fun h ↦ by cases h
    · exact fun ⟨_, hmem, _⟩ ↦ absurd hmem List.not_mem_nil
  last number := by
    constructor
    · exact fun h ↦ by cases h
    · exact fun ⟨_, hmem, _⟩ ↦ absurd hmem List.not_mem_nil

variable {entity : Entity} {kind : Kind} {segments : List Segment} {segment : Segment}

/-- The receiver sees exactly the conflicts. -/
theorem contradicts_iff (hholds : entity.Holds kind segments) (hagree : Agree segments)
    (hkind : segment.kind = kind) :
    entity.contradicts segment.segment segment.payload = true ↔
      ∃ other ∈ segments, other.Conflicts segment ∨ segment.Conflicts other := by
  have hchanged : ((entity.segments.get? segment.segment.number).any fun stored ↦
      stored != segment.payload) = true ↔ ∃ other ∈ segments, other.kind = kind ∧
        other.segment.number = segment.segment.number ∧ other.payload ≠ segment.payload := by
    rw [Option.any_eq_true]
    constructor
    · rintro ⟨stored, hstored, hne⟩
      obtain ⟨other, hmem, hother, hnumber, rfl⟩ := (hholds.parts _ _).mp hstored
      exact ⟨other, hmem, hother, hnumber, bne_iff_ne.mp hne⟩
    · rintro ⟨other, hmem, hother, hnumber, hne⟩
      exact ⟨other.payload, (hholds.parts _ _).mpr ⟨other, hmem, hother, hnumber, rfl⟩,
        bne_iff_ne.mpr hne⟩
  unfold contradicts
  rw [Bool.or_eq_true, hchanged]
  constructor
  · rintro (hend | ⟨other, hmem, hother, hnumber, hne⟩)
    · cases hlast : entity.last with
      | some last =>
        obtain ⟨other, hmem, hother, hotherLast, rfl⟩ := (hholds.last _).mp hlast
        simp only [hlast] at hend
        by_cases hle : other.segment.number < segment.segment.number
        · exact ⟨other, hmem, Or.inl ⟨hother.trans hkind.symm, Or.inr ⟨hotherLast, hle⟩⟩⟩
        · cases hsegment : segment.segment.last with
          | true =>
            rw [hsegment, if_pos rfl, bne_iff_ne] at hend
            exact ⟨other, hmem, Or.inr ⟨hkind.trans hother.symm, Or.inr ⟨hsegment, by omega⟩⟩⟩
          | false =>
            rw [hsegment, if_neg (by decide), decide_eq_true_iff] at hend
            exact absurd hend hle
      | none =>
        simp only [hlast] at hend
        rw [Bool.and_eq_true, Option.any_eq_true] at hend
        obtain ⟨hsegment, highest, hhighest, hlt⟩ := hend
        have hentry : (highest.1, highest.2) ∈ entity.segments.entries :=
          List.mem_of_getLast? hhighest
        obtain ⟨other, hmem, hother, hnumber, -⟩ :=
          (hholds.parts _ _).mp (SortedMap.get?_eq_some.mpr hentry)
        rw [← hnumber, decide_eq_true_iff] at hlt
        exact ⟨other, hmem, Or.inr ⟨hkind.trans hother.symm, Or.inr ⟨hsegment, hlt⟩⟩⟩
    · exact ⟨other, hmem, Or.inl ⟨hother.trans hkind.symm, Or.inl ⟨hnumber, hne⟩⟩⟩
  · rintro ⟨other, hmem, ⟨hother, hcopy | hbehind⟩ | ⟨hother, hcopy | hbehind⟩⟩
    · exact Or.inr ⟨other, hmem, hother.trans hkind, hcopy⟩
    · refine Or.inl ?_
      have hlast : entity.last = some other.segment.number :=
        (hholds.last _).mpr ⟨other, hmem, hother.trans hkind, hbehind.1, rfl⟩
      simp only [hlast]
      split_ifs
      · exact bne_iff_ne.mpr hbehind.2.ne
      · exact decide_eq_true hbehind.2
    · exact Or.inr ⟨other, hmem, hother.symm.trans hkind, hcopy.1.symm, hcopy.2.symm⟩
    · refine Or.inl ?_
      cases hlast : entity.last with
      | some last =>
        -- The last segment stands above `other`, since the segments agree among themselves.
        obtain ⟨final, hfinal, hfinalKind, hfinalLast, rfl⟩ := (hholds.last _).mp hlast
        have hbelow : ¬final.segment.number < other.segment.number := fun hlt ↦
          hagree final hfinal other hmem
            ⟨hfinalKind.trans (hkind.symm.trans hother), Or.inr ⟨hfinalLast, hlt⟩⟩
        simp only [hbehind.1, if_true]
        exact bne_iff_ne.mpr (by omega)
      | none =>
        have hentry : (other.segment.number, other.payload) ∈ entity.segments.entries :=
          SortedMap.get?_eq_some.mp
            ((hholds.parts _ _).mpr ⟨other, hmem, hother.symm.trans hkind, rfl, rfl⟩)
        simp only [hbehind.1, Bool.true_and]
        cases hhighest : entity.segments.entries.getLast? with
        | none =>
          rw [List.getLast?_eq_none_iff.mp hhighest] at hentry
          cases hentry
        | some highest =>
          have hle := SortedMap.le_of_getLast? hhighest hentry
          exact decide_eq_true (lt_of_lt_of_le hbehind.2 hle)

theorem store_parts (hholds : entity.Holds kind segments) (hkind : segment.kind = kind)
    (hagree : Agree (segments ++ [segment])) (number : ℕ) (data : List UInt8) :
    (if entity.segments.contains segment.segment.number then entity.segments
      else entity.segments.insert segment.segment.number segment.payload).get? number = some data ↔
      ∃ other ∈ segments ++ [segment], other.kind = kind ∧ other.segment.number = number ∧
        other.payload = data := by
  have hsplit : (∃ other ∈ segments ++ [segment], other.kind = kind ∧
      other.segment.number = number ∧ other.payload = data) ↔
      entity.segments.get? number = some data ∨
        segment.segment.number = number ∧ segment.payload = data := by
    rw [hholds.parts]
    simp only [List.mem_append, List.mem_singleton, or_and_right, exists_or, exists_eq_left, hkind,
      true_and]
  rw [hsplit]
  split_ifs with hcontains
  · constructor
    · exact Or.inl
    · rintro (hold | ⟨rfl, rfl⟩)
      · exact hold
      · rw [SortedMap.contains_eq_isSome, Option.isSome_iff_exists] at hcontains
        obtain ⟨stored, hstored⟩ := hcontains
        obtain ⟨other, hmem, hother, hnumber, rfl⟩ := (hholds.parts _ _).mp hstored
        have hsame : other.payload = segment.payload := by
          by_contra hne
          exact hagree other (List.mem_append_left _ hmem) segment (by simp)
            ⟨hother.trans hkind.symm, Or.inl ⟨hnumber, hne⟩⟩
        rw [hstored, hsame]
  · rw [SortedMap.contains_eq_isSome, Bool.not_eq_true, Option.isSome_eq_false_iff,
      Option.isNone_iff_eq_none] at hcontains
    by_cases hnumber : number = segment.segment.number
    · subst hnumber
      rw [SortedMap.get?_insert_self, hcontains, Option.some_inj]
      simp only [reduceCtorEq, false_or, true_and]
    · rw [SortedMap.get?_insert_of_ne hnumber]
      simp only [Ne.symm hnumber, false_and, or_false]

theorem store_last (hholds : entity.Holds kind segments) (hkind : segment.kind = kind)
    (hagree : Agree (segments ++ [segment])) (number : ℕ) :
    (if segment.segment.last then some segment.segment.number else entity.last) = some number ↔
      ∃ other ∈ segments ++ [segment], other.kind = kind ∧ other.segment.last = true ∧
        other.segment.number = number := by
  have hsplit : (∃ other ∈ segments ++ [segment], other.kind = kind ∧ other.segment.last = true ∧
      other.segment.number = number) ↔ entity.last = some number ∨
        segment.segment.last = true ∧ segment.segment.number = number := by
    rw [hholds.last]
    simp only [List.mem_append, List.mem_singleton, or_and_right, exists_or, exists_eq_left, hkind,
      true_and]
  rw [hsplit]
  split_ifs with hlast
  · rw [Option.some_inj]
    constructor
    · exact fun hnumber ↦ Or.inr ⟨hlast, hnumber⟩
    · rintro (hold | ⟨-, hnumber⟩)
      · obtain ⟨other, hmem, hother, hotherLast, rfl⟩ := (hholds.last _).mp hold
        have hmem' := List.mem_append_left [segment] hmem
        have hself : segment ∈ segments ++ [segment] := by simp
        have habove : ¬segment.segment.number < other.segment.number := fun hlt ↦
          hagree segment hself other hmem' ⟨hkind.trans hother.symm, Or.inr ⟨hlast, hlt⟩⟩
        have hbelow : ¬other.segment.number < segment.segment.number := fun hlt ↦
          hagree other hmem' segment hself ⟨hother.trans hkind.symm, Or.inr ⟨hotherLast, hlt⟩⟩
        omega
      · exact hnumber
  · simp only [hlast, Bool.false_eq_true, false_and, or_false]

theorem agree_left (hagree : Agree (segments ++ [segment])) : Agree segments :=
  fun a ha b hb ↦ hagree a (List.mem_append_left _ ha) b (List.mem_append_left _ hb)

/-- A segment that does not conflict is held with the others. -/
theorem store_holds (hholds : entity.Holds kind segments) (hkind : segment.kind = kind)
    (hagree : Agree (segments ++ [segment])) :
    ∃ after, entity.store segment.segment segment.payload = some after ∧
      after.Holds kind (segments ++ [segment]) := by
  have hself : segment ∈ segments ++ [segment] := by simp
  have hfree : ¬entity.contradicts segment.segment segment.payload = true := by
    rw [contradicts_iff hholds (agree_left hagree) hkind]
    rintro ⟨other, hmem, hconflict | hconflict⟩
    · exact hagree other (List.mem_append_left _ hmem) segment hself hconflict
    · exact hagree segment hself other (List.mem_append_left _ hmem) hconflict
  rw [store, if_neg hfree]
  exact ⟨_, rfl, store_parts hholds hkind hagree, store_last hholds hkind hagree⟩

/-- A segment that conflicts is not stored. -/
theorem store_conflict (hholds : entity.Holds kind segments) (hkind : segment.kind = kind)
    (hagree : Agree segments) (hconflict : ¬Agree (segments ++ [segment])) :
    entity.store segment.segment segment.payload = none := by
  rw [store, if_pos]
  rw [contradicts_iff hholds hagree hkind]
  by_contra hnone
  apply hconflict
  intro a ha b hb hab
  rw [List.mem_append, List.mem_singleton] at ha hb
  rcases ha with ha | rfl
  · rcases hb with hb | rfl
    · exact hagree a ha b hb hab
    · exact hnone ⟨a, ha, Or.inl hab⟩
  · rcases hb with hb | rfl
    · exact hnone ⟨b, hb, Or.inr hab⟩
    · exact Segment.not_conflicts_self _ hab

/-- A segment of the other kind changes nothing. -/
theorem Holds.append_other (hholds : entity.Holds kind segments) (hkind : segment.kind ≠ kind) :
    entity.Holds kind (segments ++ [segment]) where
  parts number data := by
    rw [hholds.parts]
    simp only [List.mem_append, List.mem_singleton, or_and_right, exists_or, exists_eq_left, hkind,
      false_and, or_false]
  last number := by
    rw [hholds.last]
    simp only [List.mem_append, List.mem_singleton, or_and_right, exists_or, exists_eq_left, hkind,
      false_and, or_false]

/-! ### Joining the segments -/

theorem mapM_eq_some {α β : Type} (f : α → Option β) (list : List α) (out : List β) :
    list.mapM f = some out ↔ list.map f = out.map some := by
  induction list generalizing out with
  | nil => cases out <;> simp
  | cons first rest ih =>
    rw [List.mapM_cons, List.map_cons]
    cases hfirst : f first with
    | none => cases out <;> simp
    | some value =>
      cases out with
      | nil => cases hrest : rest.mapM f <;> simp
      | cons head tail =>
        have htail := ih tail
        cases hrest : rest.mapM f with
        | none => simp_all
        | some others => simp_all

theorem count_of_all {map : SortedMap ℕ (List UInt8)} {last : ℕ}
    (hall : ∀ number ≤ last, (map.get? number).isSome) :
    (map.entries.filter fun entry ↦ entry.1 ≤ last).length = last + 1 := by
  have hnodup : ((map.entries.filter fun entry ↦ entry.1 ≤ last).map Prod.fst).Nodup :=
    List.pairwise_map.mpr ((map.sorted.filter _).imp ne_of_lt)
  have hkeys : ((map.entries.filter fun entry ↦ entry.1 ≤ last).map Prod.fst).toFinset =
      Finset.range (last + 1) := by
    ext number
    simp only [List.mem_toFinset, List.mem_map, List.mem_filter, decide_eq_true_iff, Finset.mem_range]
    constructor
    · rintro ⟨entry, ⟨-, hle⟩, rfl⟩
      omega
    · intro hlt
      obtain ⟨data, hdata⟩ := Option.isSome_iff_exists.mp (hall number (by omega))
      exact ⟨(number, data), ⟨SortedMap.get?_eq_some.mp hdata, by omega⟩, rfl⟩
  rw [← List.length_map (f := Prod.fst), ← List.toFinset_card_of_nodup hnodup, hkeys,
    Finset.card_range]

/-- An entity is assembled from the parts up to its last one. -/
theorem assembled_iff (bytes : List UInt8) :
    entity.assembled = some bytes ↔ ∃ (last : ℕ) (parts : List (List UInt8)),
      entity.last = some last ∧
      (List.range (last + 1)).map entity.segments.get? = parts.map some ∧ bytes = parts.flatten := by
  unfold assembled
  cases entity.last with
  | none => simp
  | some last =>
    simp only [Option.bind_eq_bind, Option.bind_some, Option.some_inj]
    constructor
    · intro hbytes
      split_ifs at hbytes
      obtain ⟨parts, hparts, rfl⟩ := Option.map_eq_some_iff.mp hbytes
      exact ⟨last, parts, rfl, (mapM_eq_some _ _ _).mp hparts, rfl⟩
    · rintro ⟨last, parts, rfl, hparts, rfl⟩
      have hall : ∀ number ≤ last, (entity.segments.get? number).isSome := by
        intro number hle
        have hmem : entity.segments.get? number ∈ parts.map some := by
          rw [← hparts]
          exact List.mem_map_of_mem (List.mem_range.mpr (by omega))
        obtain ⟨part, -, hpart⟩ := List.mem_map.mp hmem
        rw [← hpart]
        rfl
      rw [if_neg (by rw [count_of_all hall]; exact fun h ↦ h rfl), (mapM_eq_some _ _ _).mpr hparts]
      rfl

end Entity

/-! ## Transfers -/

/-- The transfer holds the segments, which are all of one object. -/
structure Transfer.Holds (transfer : Transfer) (segments : List Segment) : Prop where
  same : ∀ segment ∈ segments, segment.transportId = transfer.transportId
  agree : Agree segments
  header : transfer.header.Holds .header segments
  body : transfer.body.Holds .body segments

namespace Transfer

theorem holds_fresh (transportId : ℕ) : Holds { transportId := transportId } [] where
  same := fun _ hmem ↦ absurd hmem List.not_mem_nil
  agree := fun _ hmem ↦ absurd hmem List.not_mem_nil
  header := Entity.holds_empty _
  body := Entity.holds_empty _

variable {transfer : Transfer} {segments : List Segment} {segment : Segment}

theorem Holds.entity (hholds : transfer.Holds segments) (hkind : segment.kind ≠ .unsupported) :
    (transfer.entity segment.kind).Holds segment.kind segments := by
  cases hsegment : segment.kind with
  | header => exact hholds.header
  | body => exact hholds.body
  | unsupported => exact absurd hsegment hkind

/-- One entity takes the segment and the other one is as before. -/
theorem Holds.setEntity (hholds : transfer.Holds segments) (hkind : segment.kind ≠ .unsupported)
    (hsame : segment.transportId = transfer.transportId) (hagree : Agree (segments ++ [segment]))
    {entity : Entity} (hentity : entity.Holds segment.kind (segments ++ [segment])) :
    (transfer.setEntity segment.kind entity).Holds (segments ++ [segment]) := by
  have hall : ∀ other ∈ segments ++ [segment], other.transportId = transfer.transportId := by
    intro other hmem
    rcases List.mem_append.mp hmem with hmem | hmem
    · exact hholds.same other hmem
    · rw [List.mem_singleton.mp hmem]
      exact hsame
  cases hsegment : segment.kind with
  | header =>
    rw [hsegment] at hentity
    exact ⟨hall, hagree, hentity, hholds.body.append_other (by rw [hsegment]; decide)⟩
  | body =>
    rw [hsegment] at hentity
    exact ⟨hall, hagree, hholds.header.append_other (by rw [hsegment]; decide), hentity⟩
  | unsupported => exact absurd hsegment hkind

theorem setEntity_finished (transfer : Transfer) (kind : Kind) (entity : Entity) :
    (transfer.setEntity kind entity).finished = transfer.finished := by
  cases kind <;> rfl

theorem setEntity_transportId (transfer : Transfer) (kind : Kind) (entity : Entity) :
    (transfer.setEntity kind entity).transportId = transfer.transportId := by
  cases kind <;> rfl

/-- The object is looked for once the segment is in. -/
def finish (transfer : Transfer) : Transfer × Except String (Option BroadcastData) :=
  if transfer.finished then (transfer, .ok none)
  else
    match transfer.header.assembled, transfer.body.assembled with
    | some header, some body => ({ transfer with finished := true }, some <$> object header body)
    | _, _ => (transfer, .ok none)

theorem receive_agree (hholds : transfer.Holds segments) (hkind : segment.kind ≠ .unsupported)
    (hsame : segment.transportId = transfer.transportId) (hagree : Agree (segments ++ [segment])) :
    ∃ next, transfer.receive segment.kind segment.segment segment.payload = finish next ∧
      next.Holds (segments ++ [segment]) ∧ next.finished = transfer.finished ∧
      next.transportId = transfer.transportId := by
  obtain ⟨entity, hstore, hentity⟩ :=
    Entity.store_holds (hholds.entity hkind) rfl hagree
  refine ⟨transfer.setEntity segment.kind entity, ?_, hholds.setEntity hkind hsame hagree hentity,
    setEntity_finished .., setEntity_transportId ..⟩
  rw [receive, hstore]
  rfl

theorem receive_conflict (hholds : transfer.Holds segments) (hkind : segment.kind ≠ .unsupported)
    (hsame : segment.transportId = transfer.transportId)
    (hconflict : ¬Agree (segments ++ [segment])) :
    ∃ next, transfer.receive segment.kind segment.segment segment.payload =
        (next, .error conflict) ∧ next.Holds [segment] := by
  have hfresh := holds_fresh transfer.transportId
  have hagree : Agree ([] ++ [segment]) := by
    intro a ha b hb hab
    rw [List.nil_append, List.mem_singleton] at ha hb
    rw [ha, hb] at hab
    exact Segment.not_conflicts_self _ hab
  obtain ⟨entity, hstore, hentity⟩ :=
    Entity.store_holds (hfresh.entity hkind) rfl hagree
  refine ⟨_, ?_, hfresh.setEntity hkind hsame hagree hentity⟩
  rw [receive, Entity.store_conflict (hholds.entity hkind) rfl hholds.agree hconflict]
  simp only [hstore, Option.getD_some]

end Transfer

/-! ## No object is mixed -/

/-- The segments that were read off some inputs. -/
def segmentsOf (inputs : List (List UInt8)) : List Segment :=
  inputs.filterMap fun bytes ↦
    match Segment.read bytes with
    | .ok segment => segment
    | .error _ => none

/-- The bytes are the payloads of one kind of segments, from the first number to the last. -/
def Joins (segments : List Segment) (kind : Kind) (bytes : List UInt8) : Prop :=
  ∃ parts : List (List UInt8), bytes = parts.flatten ∧
    (∃ segment ∈ segments, segment.kind = kind ∧ segment.segment.last = true ∧
      segment.segment.number + 1 = parts.length) ∧
    ∀ number part, parts[number]? = some part →
      ∃ segment ∈ segments, segment.kind = kind ∧ segment.segment.number = number ∧
        segment.payload = part

/-- The object is made of segments of one transport id among which there is no conflict. -/
structure Unmixed (segments : List Segment) (data : BroadcastData) : Prop where
  same : ∃ transportId, ∀ segment ∈ segments, segment.transportId = transportId
  agree : Agree segments
  joined : ∃ header body, Joins segments .header header ∧ Joins segments .body body ∧
    object header body = .ok data

theorem Entity.Holds.joins {entity : Entity} {kind : Kind} {segments : List Segment}
    {bytes : List UInt8} (hholds : entity.Holds kind segments)
    (hbytes : entity.assembled = some bytes) : Joins segments kind bytes := by
  obtain ⟨last, parts, hlast, hparts, rfl⟩ := (Entity.assembled_iff bytes).mp hbytes
  have hlength : last + 1 = parts.length := by
    have := congrArg List.length hparts
    rwa [List.length_map, List.length_map, List.length_range] at this
  refine ⟨parts, rfl, ?_, ?_⟩
  · obtain ⟨segment, hmem, hkind, hflag, rfl⟩ := (hholds.last last).mp hlast
    exact ⟨segment, hmem, hkind, hflag, hlength⟩
  · intro number part hpart
    have hlt := (List.getElem?_eq_some_iff.mp hpart).1
    have hget := congrArg (fun list ↦ list[number]?) hparts
    simp only [List.getElem?_map, hpart, Option.map_some,
      List.getElem?_range (show number < last + 1 by omega)] at hget
    exact (hholds.parts number part).mp (Option.some.inj hget)

namespace Transfer

theorem finish_holds {transfer : Transfer} {segments : List Segment}
    (hholds : transfer.Holds segments) : (finish transfer).1.Holds segments := by
  unfold finish
  split_ifs
  · exact hholds
  · split
    · exact ⟨hholds.same, hholds.agree, hholds.header, hholds.body⟩
    · exact hholds

theorem finish_unmixed {transfer : Transfer} {segments : List Segment} {data : BroadcastData}
    (hholds : transfer.Holds segments) (hdata : (finish transfer).2 = .ok (some data)) :
    Unmixed segments data := by
  unfold finish at hdata
  split_ifs at hdata
  · cases hdata
  · split at hdata
    · rename_i header body hheader hbody
      refine ⟨⟨transfer.transportId, hholds.same⟩, hholds.agree, header, body,
        hholds.header.joins hheader, hholds.body.joins hbody, ?_⟩
      cases hobject : object header body with
      | error error => rw [hobject] at hdata; cases hdata
      | ok found => rw [hobject] at hdata; cases hdata; rfl
    · cases hdata

end Transfer

theorem Segment.read_kind {bytes : List UInt8} {segment : Segment}
    (hread : Segment.read bytes = .ok (some segment)) : segment.kind ≠ .unsupported := by
  unfold Segment.read at hread
  cases hparse : DataGroup.parse bytes with
  | error error => rw [hparse] at hread; cases hread
  | ok group =>
    simp only [hparse, bind, Except.bind] at hread
    split_ifs at hread with hkind
    · cases hread
    · split at hread
      · cases hread
      · cases hread
      · cases hpayload : segmentPayload group.data with
        | error error => rw [hpayload] at hread; cases hread
        | ok payload => rw [hpayload] at hread; cases hread; exact hkind

namespace Receiver

/-- A transfer holds the segments of the inputs since it began. -/
def Follows (mot : Receiver) (inputs : List (List UInt8)) : Prop :=
  ∀ transfer, mot.transfer = some transfer →
    ∃ before window, inputs = before ++ window ∧ transfer.Holds (segmentsOf window)

variable {mot : Receiver} {inputs : List (List UInt8)}

/-- An input without a segment belongs to any window. -/
theorem Follows.skip (hfollows : mot.Follows inputs) {bytes : List UInt8}
    (hnone : segmentsOf [bytes] = []) : mot.Follows (inputs ++ [bytes]) := by
  intro transfer htransfer
  obtain ⟨before, window, rfl, hholds⟩ := hfollows transfer htransfer
  refine ⟨before, window ++ [bytes], List.append_assoc .., ?_⟩
  rwa [segmentsOf, List.filterMap_append, ← segmentsOf, ← segmentsOf, hnone, List.append_nil]

/-- The transfer that a segment goes to holds a window that ends right before the segment. -/
theorem Follows.retired (hfollows : mot.Follows inputs) (transportId : ℕ) :
    ∃ before window, inputs = before ++ window ∧
      ((mot.retireOther transportId).1.getD { transportId := transportId }).Holds
        (segmentsOf window) ∧
      ((mot.retireOther transportId).1.getD { transportId := transportId }).transportId =
        transportId := by
  have hfresh : ∃ before window, inputs = before ++ window ∧
      Transfer.Holds { transportId := transportId } (segmentsOf window) ∧
      ({ transportId := transportId } : Transfer).transportId = transportId :=
    ⟨inputs, [], (List.append_nil _).symm, Transfer.holds_fresh _, rfl⟩
  unfold retireOther
  cases htransfer : mot.transfer with
  | none => exact hfresh
  | some transfer =>
    simp only
    split_ifs with hsame
    · obtain ⟨before, window, hinputs, hholds⟩ := hfollows transfer htransfer
      exact ⟨before, window, hinputs, hholds, hsame⟩
    · exact hfresh

theorem Follows.push (hfollows : mot.Follows inputs) (bytes : List UInt8) :
    (mot.push bytes).1.Follows (inputs ++ [bytes]) ∧
      ∀ data, (mot.push bytes).2 = .ok (some data) →
        ∃ before window, inputs ++ [bytes] = before ++ window ∧ Unmixed (segmentsOf window) data := by
  unfold Receiver.push
  cases hread : Segment.read bytes with
  | error error =>
    exact ⟨hfollows.skip (by simp [segmentsOf, hread]), fun _ hdata ↦ by cases hdata⟩
  | ok segment =>
    cases segment with
    | none => exact ⟨hfollows.skip (by simp [segmentsOf, hread]), fun _ hdata ↦ by cases hdata⟩
    | some segment =>
      simp only
      have hkind := Segment.read_kind hread
      obtain ⟨before, window, rfl, hholds, hid⟩ := hfollows.retired segment.transportId
      have hone : segmentsOf [bytes] = [segment] := by simp [segmentsOf, hread]
      have hwindow : segmentsOf (window ++ [bytes]) = segmentsOf window ++ [segment] := by
        rw [segmentsOf, List.filterMap_append, ← segmentsOf, ← segmentsOf, hone]
      unfold receive
      simp only
      by_cases hagree : Agree (segmentsOf window ++ [segment])
      · obtain ⟨next, hreceive, hnext, -⟩ := Transfer.receive_agree hholds hkind hid.symm hagree
        rw [← hwindow] at hnext
        rw [hreceive]
        constructor
        · intro transfer htransfer
          obtain rfl := Option.some.inj htransfer
          exact ⟨before, window ++ [bytes], List.append_assoc .., Transfer.finish_holds hnext⟩
        · intro data hdata
          refine ⟨before, window ++ [bytes], List.append_assoc .., Transfer.finish_unmixed hnext ?_⟩
          split at hdata
          · split_ifs at hdata
            cases hdata
          · exact hdata
      · obtain ⟨next, hreceive, hnext⟩ := Transfer.receive_conflict hholds hkind hid.symm hagree
        rw [hreceive]
        constructor
        · intro transfer htransfer
          obtain rfl := Option.some.inj htransfer
          exact ⟨before ++ window, [bytes], rfl, by rwa [hone]⟩
        · exact fun data hdata ↦ by cases hdata

theorem follows_run (inputs : List (List UInt8)) : (run {} inputs).1.Follows inputs := by
  induction inputs using List.reverseRecOn with
  | nil => exact fun _ htransfer ↦ by cases htransfer
  | append_singleton inputs bytes ih =>
    rw [run, Mealy.run_append]
    exact (ih.push bytes).1

end Receiver

/-! ## An object comes out once -/

namespace Sent

variable {sent : Sent} {groups : List Group}

theorem agree_carried (hsends : ∀ group ∈ groups, sent.Sends group) :
    Agree (groups.map Group.carried) := by
  intro a ha b hb ⟨hkind, hconflict⟩
  obtain ⟨first, hfirst, rfl⟩ := List.mem_map.mp ha
  obtain ⟨second, hsecond, rfl⟩ := List.mem_map.mp hb
  obtain ⟨-, hfirstPart, hfirstLast⟩ := hsends first hfirst
  obtain ⟨-, hsecondPart, -⟩ := hsends second hsecond
  simp only [Group.carried] at hkind hconflict
  rw [hkind] at hfirstPart hfirstLast
  rcases hconflict with ⟨hnumber, hne⟩ | ⟨hlast, hlt⟩
  · rw [hnumber, hsecondPart] at hfirstPart
    exact hne (Option.some.inj hfirstPart).symm
  · rw [hlast, eq_comm, decide_eq_true_iff] at hfirstLast
    have := (List.getElem?_eq_some_iff.mp hsecondPart).1
    omega

/-- The segments of one kind have arrived. -/
def ArrivedKind (sent : Sent) (kind : Kind) (groups : List Group) : Prop :=
  ∀ number < (sent.cut kind).parts.length, ∃ group ∈ groups, group.kind = kind ∧ group.number = number

theorem arrived_iff : sent.Arrived groups ↔
    sent.ArrivedKind .header groups ∧ sent.ArrivedKind .body groups := by
  constructor
  · exact fun harrived ↦ ⟨harrived .header (by decide), harrived .body (by decide)⟩
  · intro ⟨hheader, hbody⟩ kind hkind
    cases kind with
    | header => exact hheader
    | body => exact hbody
    | unsupported => exact absurd rfl hkind

variable {entity : Entity} {kind : Kind}

/-- An entity is assembled exactly when its segments have arrived, and it is then what was cut. -/
theorem assembled_of_arrived (hsends : ∀ group ∈ groups, sent.Sends group)
    (hholds : entity.Holds kind (groups.map Group.carried)) (harrived : sent.ArrivedKind kind groups) :
    entity.assembled = some (sent.cut kind).bytes := by
  have hpositive : 0 < (sent.cut kind).parts.length := List.length_pos_iff.mpr (sent.cut kind).parts_ne
  rw [Entity.assembled_iff]
  refine ⟨(sent.cut kind).parts.length - 1, (sent.cut kind).parts, ?_, ?_, rfl⟩
  · obtain ⟨group, hmem, hkind, hnumber⟩ := harrived ((sent.cut kind).parts.length - 1) (by omega)
    obtain ⟨-, -, hlast⟩ := hsends group hmem
    rw [hholds.last]
    refine ⟨group.carried, List.mem_map_of_mem hmem, hkind, ?_, hnumber⟩
    change group.last = true
    rw [hlast, hkind, decide_eq_true_iff]
    omega
  · apply List.ext_getElem?
    intro number
    rw [Nat.sub_add_cancel hpositive, List.getElem?_map, List.getElem?_map]
    by_cases hlt : number < (sent.cut kind).parts.length
    · obtain ⟨group, hmem, hkind, rfl⟩ := harrived number hlt
      obtain ⟨-, hpart, -⟩ := hsends group hmem
      rw [hkind] at hpart
      rw [List.getElem?_range hlt, hpart, Option.map_some, Option.map_some, Option.some_inj]
      exact (hholds.parts _ _).mpr ⟨group.carried, List.mem_map_of_mem hmem, hkind, rfl, rfl⟩
    · rw [List.getElem?_eq_none (by rw [List.length_range]; omega), List.getElem?_eq_none (by omega)]
      rfl

theorem arrived_of_assembled (hsends : ∀ group ∈ groups, sent.Sends group)
    (hholds : entity.Holds kind (groups.map Group.carried)) {bytes : List UInt8}
    (hbytes : entity.assembled = some bytes) : sent.ArrivedKind kind groups := by
  obtain ⟨parts, -, ⟨segment, hsegment, hkind, hflag, hlength⟩, hparts⟩ := hholds.joins hbytes
  obtain ⟨final, hfinal, rfl⟩ := List.mem_map.mp hsegment
  obtain ⟨-, -, hlast⟩ := hsends final hfinal
  simp only [Group.carried] at hkind hflag hlength
  rw [hflag, eq_comm, decide_eq_true_iff, hkind] at hlast
  intro number hlt
  obtain ⟨part, hpart⟩ : ∃ part, parts[number]? = some part :=
    ⟨_, List.getElem?_eq_getElem (show number < parts.length by omega)⟩
  obtain ⟨other, hother, hotherKind, hnumber, -⟩ := hparts number part hpart
  obtain ⟨group, hmem, rfl⟩ := List.mem_map.mp hother
  exact ⟨group, hmem, hotherKind, hnumber⟩

theorem Arrived.append (harrived : sent.Arrived groups) (group : Group) :
    sent.Arrived (groups ++ [group]) := by
  intro kind hkind number hlt
  obtain ⟨found, hmem, hfound⟩ := harrived kind hkind number hlt
  exact ⟨found, List.mem_append_left _ hmem, hfound⟩

/-- What looking for the object gives once some groups are in. -/
theorem finish_eq [Decidable (sent.Arrived groups)] (hsends : ∀ group ∈ groups, sent.Sends group)
    {transfer : Transfer} (hholds : transfer.Holds (groups.map Group.carried)) :
    Transfer.finish transfer =
      if transfer.finished then (transfer, .ok none)
      else if sent.Arrived groups then
        ({ transfer with finished := true }, some <$> object sent.header.bytes sent.body.bytes)
      else (transfer, .ok none) := by
  unfold Transfer.finish
  congr 1
  split_ifs with harrived
  · obtain ⟨hheader, hbody⟩ := arrived_iff.mp harrived
    rw [assembled_of_arrived hsends hholds.header hheader,
      assembled_of_arrived hsends hholds.body hbody]
    rfl
  · split
    · rename_i header body hheader hbody
      exact absurd (arrived_iff.mpr ⟨arrived_of_assembled hsends hholds.header hheader,
        arrived_of_assembled hsends hholds.body hbody⟩) harrived
    · rfl

/-- The receiver has taken the groups and nothing else. -/
structure Progress (sent : Sent) (groups : List Group) (mot : Receiver) : Prop where
  same : ∀ transfer, mot.transfer = some transfer → transfer.transportId = sent.transportId
  holds : (mot.transfer.getD { transportId := sent.transportId }).Holds (groups.map Group.carried)
  finished : (mot.transfer.getD { transportId := sent.transportId }).finished = true ↔
    sent.Arrived groups

theorem progress_empty (sent : Sent) : sent.Progress [] {} where
  same := fun _ htransfer ↦ by cases htransfer
  holds := Transfer.holds_fresh _
  finished := by
    constructor
    · exact fun hfinished ↦ by cases hfinished
    · intro harrived
      obtain ⟨group, hmem, -⟩ :=
        harrived .header (by decide) 0 (List.length_pos_iff.mpr sent.header.parts_ne)
      cases hmem

open Classical in
theorem Progress.push {mot : Receiver} (hprogress : sent.Progress groups mot) {group : Group}
    (hsends : ∀ other ∈ groups ++ [group], sent.Sends other) {data : BroadcastData}
    (hdata : object sent.header.bytes sent.body.bytes = .ok data) :
    sent.Progress (groups ++ [group]) (mot.push group.encode).1 ∧
      (mot.push group.encode).2 =
        if sent.Arrived (groups ++ [group]) ∧ ¬sent.Arrived groups then .ok (some data)
        else .ok none := by
  have hid : group.carried.transportId = sent.transportId := (hsends group (by simp)).1
  have hretired : mot.retireOther sent.transportId = (mot.transfer, false) := by
    unfold Receiver.retireOther
    cases htransfer : mot.transfer with
    | none => rfl
    | some transfer => simp only [hprogress.same transfer htransfer, if_true]
  have hholds := hprogress.holds
  have hfinished := hprogress.finished
  have htransportId :
      (mot.transfer.getD { transportId := sent.transportId }).transportId = sent.transportId := by
    cases htransfer : mot.transfer with
    | none => rfl
    | some transfer => exact hprogress.same transfer htransfer
  unfold Receiver.push
  rw [Group.read_encode]
  simp only [Receiver.receive, hid, hretired, Bool.false_eq_true, if_false]
  generalize mot.transfer.getD { transportId := sent.transportId } = transfer at *
  have hcarried : (groups ++ [group]).map Group.carried =
      groups.map Group.carried ++ [group.carried] := by rw [List.map_append, List.map_singleton]
  obtain ⟨next, hreceive, hnext, hnextFinished, hnextId⟩ := Transfer.receive_agree hholds
    group.supported (hid.trans htransportId.symm) (hcarried ▸ agree_carried hsends)
  rw [← hcarried] at hnext
  rw [← hnextFinished] at hfinished
  rw [hreceive, finish_eq hsends hnext, hdata]
  -- The object is out already, comes out now, or is still to come.
  by_cases hbefore : sent.Arrived groups
  · have hafter := hbefore.append group
    rw [if_pos (hfinished.mpr hbefore), if_neg (fun h ↦ h.2 hbefore)]
    refine ⟨⟨?_, hnext, ?_⟩, rfl⟩
    · intro other hother
      rw [← Option.some.inj hother, hnextId, htransportId]
    · exact iff_of_true (hfinished.mpr hbefore) hafter
  · rw [if_neg (fun h ↦ hbefore (hfinished.mp h))]
    by_cases hafter : sent.Arrived (groups ++ [group])
    · rw [if_pos hafter, if_pos ⟨hafter, hbefore⟩]
      refine ⟨⟨?_, ⟨hnext.same, hnext.agree, hnext.header, hnext.body⟩, iff_of_true rfl hafter⟩, rfl⟩
      intro other hother
      rw [← Option.some.inj hother]
      exact hnextId.trans htransportId
    · rw [if_neg hafter, if_neg (fun h ↦ hafter h.1)]
      refine ⟨⟨?_, hnext, ?_⟩, rfl⟩
      · intro other hother
        rw [← Option.some.inj hother, hnextId, htransportId]
      · exact iff_of_false (fun h ↦ hbefore (hfinished.mp h)) hafter

open Classical in
theorem progress_run (groups : List Group) (hsends : ∀ group ∈ groups, sent.Sends group)
    {data : BroadcastData} (hdata : object sent.header.bytes sent.body.bytes = .ok data) :
    sent.Progress groups (Receiver.run {} (groups.map Group.encode)).1 ∧
      (Receiver.run {} (groups.map Group.encode)).2 = (List.range groups.length).map fun position ↦
        if sent.Arrived (groups.take (position + 1)) ∧ ¬sent.Arrived (groups.take position)
          then .ok (some data) else .ok none := by
  induction groups using List.reverseRecOn with
  | nil => exact ⟨sent.progress_empty, rfl⟩
  | append_singleton groups group ih =>
    obtain ⟨hprogress, hresults⟩ := ih fun other hmem ↦ hsends other (List.mem_append_left _ hmem)
    obtain ⟨hnext, hresult⟩ := hprogress.push hsends hdata
    unfold Receiver.run at hresults hnext hresult ⊢
    rw [List.map_append, Mealy.run_append, List.map_singleton]
    refine ⟨hnext, ?_⟩
    dsimp only
    rw [List.length_append, List.length_singleton, List.range_succ, List.map_append, hresults]
    congr 1
    · apply List.map_congr_left
      intro position hposition
      rw [List.mem_range] at hposition
      rw [List.take_append_of_le_length (by omega), List.take_append_of_le_length (by omega)]
    · simp only [Mealy.run_cons, Mealy.run_nil, hresult, List.map_singleton, Option.toList_some,
        List.append_nil]
      rw [List.take_left, List.take_of_length_le (by rw [List.length_append]; exact le_rfl)]

theorem Arrived.take_mono {few many : ℕ} (hle : few ≤ many)
    (harrived : sent.Arrived (groups.take few)) : sent.Arrived (groups.take many) := by
  intro kind hkind number hlt
  obtain ⟨found, hmem, hfound⟩ := harrived kind hkind number hlt
  exact ⟨found, (List.take_sublist_take_left hle).subset hmem, hfound⟩

/-- There is a first group after which all segments have arrived. -/
theorem Arrived.first (harrived : sent.Arrived groups) :
    ∃ first < groups.length, sent.Arrived (groups.take (first + 1)) ∧
      ¬sent.Arrived (groups.take first) := by
  classical
  have hexists : ∃ count, sent.Arrived (groups.take count) :=
    ⟨groups.length, by rwa [List.take_length]⟩
  have hfound := Nat.find_spec hexists
  have hle : Nat.find hexists ≤ groups.length := Nat.find_min' hexists (by rwa [List.take_length])
  cases hcount : Nat.find hexists with
  | zero =>
    rw [hcount, List.take_zero] at hfound
    exact absurd (sent.progress_empty.finished.mpr hfound) Bool.false_ne_true
  | succ first =>
    rw [hcount] at hfound hle
    exact ⟨first, hle, hfound, Nat.find_min hexists (by omega)⟩

theorem object_named {header : Header} {name : String}
    (hparse : Header.parse sent.header.bytes = .ok header)
    (hsize : header.bodySize = sent.body.bytes.length) (hcompressed : header.compressed = false)
    (hscrambled : header.scrambled = false) (hname : header.contentName = some name) :
    object sent.header.bytes sent.body.bytes =
      .ok ⟨none, [], none, name, header.mediaType, sent.body.bytes⟩ := by
  simp only [object, hparse, hsize, hcompressed, hscrambled, hname, bind, Except.bind, ne_eq,
    not_true_eq_false, if_false, Bool.false_eq_true]
  rfl

end Sent

/-- Whatever the order and the repetitions of its groups, an object comes out once, when its last segment
has arrived; and whatever is pushed, an object that comes out is made of the segments of a stretch of the
input that all have one transport id and do not conflict. -/
theorem object_once_unmixed :
    (∀ (sent : Sent) (groups : List Group) (header : Header) (name : String),
      (∀ group ∈ groups, sent.Sends group) → sent.Arrived groups →
      Header.parse sent.header.bytes = .ok header → header.bodySize = sent.body.bytes.length →
      header.compressed = false → header.scrambled = false → header.contentName = some name →
      ∃ first < groups.length, sent.Arrived (groups.take (first + 1)) ∧
        ¬sent.Arrived (groups.take first) ∧
        (Receiver.run {} (groups.map Group.encode)).2 =
          (List.range groups.length).map fun position ↦
            if position = first then
              .ok (some ⟨none, [], none, name, header.mediaType, sent.body.bytes⟩)
            else .ok none) ∧
    ∀ (inputs : List (List UInt8)) (bytes : List UInt8) (data : BroadcastData),
      ((Receiver.run {} inputs).1.push bytes).2 = .ok (some data) →
      ∃ before window, inputs ++ [bytes] = before ++ window ∧ Unmixed (segmentsOf window) data := by
  constructor
  · intro sent groups header name hsends harrived hparse hsize hcompressed hscrambled hname
    obtain ⟨first, hlt, hafter, hbefore⟩ := harrived.first
    refine ⟨first, hlt, hafter, hbefore, ?_⟩
    have hdata := Sent.object_named hparse hsize hcompressed hscrambled hname
    rw [(Sent.progress_run groups hsends hdata).2]
    apply List.map_congr_left
    intro position _
    have hposition : sent.Arrived (groups.take (position + 1)) ∧
        ¬sent.Arrived (groups.take position) ↔ position = first := by
      constructor
      · rintro ⟨hthen, hnot⟩
        by_contra hne
        rcases Nat.lt_or_gt_of_ne hne with hearly | hlate
        · exact hbefore (hthen.take_mono hearly)
        · exact hnot (hafter.take_mono hlate)
      · rintro rfl
        exact ⟨hafter, hbefore⟩
    simp only [hposition]
  · intro inputs bytes data hdata
    exact ((Receiver.follows_run inputs).push bytes).2 data hdata

/-- A picture of two bytes whose header is cut in two. -/
def photo : Sent where
  header :=
    { parts := [[0, 0, 0, 0x20, 0x09],
        [0x84, 0x01, 0xcc, 10, 0x40, 0x70, 0x68, 0x6f, 0x74, 0x6f, 0x2e, 0x6a, 0x70, 0x67]]
      parts_ne := by decide
      parts_le := by decide
      part_le := by decide }
  body :=
    { parts := [[0x6f, 0x6b]]
      parts_ne := by decide
      parts_le := by decide
      part_le := by decide }
  transportId := 9

/-- A group of the picture without any optional field. -/
def photoGroup (kind : Kind) (hkind : kind ≠ .unsupported) (number : Fin 2) (last : Bool)
    (payload : List UInt8) (hpayload : payload.length ≤ 8191) : Group where
  kind := kind
  supported := hkind
  number := number
  number_lt := by omega
  last := last
  transportId := 9
  transportId_lt := by decide
  payload := payload
  payload_le := hpayload
  crc := true
  extension := none
  indices := 0
  reserved := 0
  address := []
  address_le := by decide
  repetition := 3

/-- The body, the end of the header twice and its start. -/
def photoGroups : List Group :=
  [photoGroup .body (by decide) 0 true [0x6f, 0x6b] (by decide),
    photoGroup .header (by decide) 1 true
      [0x84, 0x01, 0xcc, 10, 0x40, 0x70, 0x68, 0x6f, 0x74, 0x6f, 0x2e, 0x6a, 0x70, 0x67] (by decide),
    photoGroup .header (by decide) 1 true
      [0x84, 0x01, 0xcc, 10, 0x40, 0x70, 0x68, 0x6f, 0x74, 0x6f, 0x2e, 0x6a, 0x70, 0x67] (by decide),
    photoGroup .header (by decide) 0 false [0, 0, 0, 0x20, 0x09] (by decide)]

theorem parse_photo : Header.parse photo.header.bytes = .ok
    { bodySize := 2, contentType := ⟨.image, 1⟩, contentName := some "photo.jpg" } := by
  have hread : Parameter.read
      [0xcc, 10, 0x40, 0x70, 0x68, 0x6f, 0x74, 0x6f, 0x2e, 0x6a, 0x70, 0x67] =
        .ok (.contentName [0x40, 0x70, 0x68, 0x6f, 0x74, 0x6f, 0x2e, 0x6a, 0x70, 0x67], []) := rfl
  rw [Header.parse, if_neg (by decide), if_neg (by decide)]
  exact (Header.applyAll_read hread rfl).trans (Header.applyAll_nil _)

theorem photo_once : ∃ first < photoGroups.length, photo.Arrived (photoGroups.take (first + 1)) ∧
    ¬photo.Arrived (photoGroups.take first) ∧
    (Receiver.run {} (photoGroups.map Group.encode)).2 =
      (List.range photoGroups.length).map fun position ↦
        if position = first then
          .ok (some ⟨none, [], none, "photo.jpg", "image/jpeg", [0x6f, 0x6b]⟩)
        else .ok none := by
  refine object_once_unmixed.1 photo photoGroups _ "photo.jpg" ?_ ?_ parse_photo rfl rfl rfl rfl
  · intro group hgroup
    simp only [photoGroups, List.mem_cons, List.not_mem_nil, or_false] at hgroup
    rcases hgroup with rfl | rfl | rfl | rfl <;> exact ⟨rfl, rfl, rfl⟩
  · intro kind hkind number hlt
    cases kind with
    | header =>
      have hnumber : number = 0 ∨ number = 1 := by
        change number < 2 at hlt
        omega
      rcases hnumber with rfl | rfl
      · exact ⟨photoGroups.get ⟨3, by decide⟩, List.get_mem .., rfl, rfl⟩
      · exact ⟨photoGroups.get ⟨1, by decide⟩, List.get_mem .., rfl, rfl⟩
    | body =>
      have hnumber : number = 0 := by
        change number < 1 at hlt
        omega
      exact ⟨_, List.mem_cons_self, rfl, hnumber.symm⟩
    | unsupported => exact absurd rfl hkind

end Sdrmm.Mot
