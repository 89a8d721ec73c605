import Sdrmm.Channels.Gse

/-!
# Datagrams come out as they were sent

A push ends within its field whatever the field holds, and a datagram joined from fragments has passed its
check.  A receiver that takes what a sender may send holds, in each slot, the datagram in flight under the
slot's id, so that every datagram comes out when its last packet is in.
-/

namespace Sdrmm.Dvbs2

open Sdrmm.Dsp

theorem slice_eq {bytes : List UInt8} {start stop : ℕ} (hstart : start ≤ stop)
    (hstop : stop ≤ bytes.length) : slice bytes start stop = some ((bytes.take stop).drop start) :=
  if_pos ⟨hstart, hstop⟩

theorem slice_rest {bytes : List UInt8} {start : ℕ} (hstart : start ≤ bytes.length) :
    slice bytes start bytes.length = some (bytes.drop start) := by
  rw [slice_eq hstart le_rfl, List.take_length]

theorem getElem?_some {bytes : List UInt8} {i : ℕ} (hi : i < bytes.length) :
    ∃ byte, bytes[i]? = some byte := ⟨_, List.getElem?_eq_getElem hi⟩

/-! ## Any field -/

/-- Extension headers end within the data. -/
theorem skipExtensions_some (protocol : ℕ) (label data : List UInt8) :
    ∃ pdu, skipExtensions protocol label data = some pdu := by
  induction hlength : data.length using Nat.strong_induction_on generalizing protocol data with
  | _ length ih =>
    rw [skipExtensions]
    split_ifs with hplain hwords hbridged hshort
    · exact ⟨_, rfl⟩
    · exact ⟨_, rfl⟩
    · obtain ⟨high, hhigh⟩ := getElem?_some (show 12 < data.length by omega)
      obtain ⟨low, hlow⟩ := getElem?_some (show 13 < data.length by omega)
      rw [hhigh, hlow, slice_rest (by omega)]
      simp only [Option.bind_eq_bind, Option.bind_some]
      split_ifs
      · exact ⟨_, rfl⟩
      · exact ⟨_, rfl⟩
    · exact ⟨_, rfl⟩
    · have hheader : slice data 0 (protocol / 256 * 2) = _ :=
        slice_eq (Nat.zero_le _) (by omega)
      have hlong : ((data.take (protocol / 256 * 2)).drop 0).length = protocol / 256 * 2 := by
        rw [List.drop_zero, List.length_take]
        omega
      obtain ⟨high, hhigh⟩ := getElem?_some
        (show protocol / 256 * 2 - 2 < ((data.take (protocol / 256 * 2)).drop 0).length by omega)
      obtain ⟨low, hlow⟩ := getElem?_some
        (show protocol / 256 * 2 - 1 < ((data.take (protocol / 256 * 2)).drop 0).length by omega)
      rw [hheader]
      simp only [Option.bind_eq_bind, Option.bind_some, hhigh, hlow]
      exact ih _ (by rw [List.length_drop]; omega) _ _ rfl

/-- A fragment that is held: its length and its age leave room. -/
structure Fragment.Ok (fragment : Fragment) : Prop where
  alive : 0 < fragment.ttl
  declared : fragment.covered.take totalBytes = toBe16 fragment.total
  total_le : fragment.total ≤ maxPdu
  label_le : protocolBytes + fragment.label.length ≤ fragment.total
  head_le : totalBytes + protocolBytes + fragment.label.length ≤ fragment.covered.length

/-- What was joined from fragments has passed the check over exactly the length that was declared. -/
def Delivery.Checked : Delivery → Prop
  | .whole _ => True
  | .joined fragment pdu =>
      fragment.covered.take totalBytes = toBe16 fragment.total ∧
        fragment.covered.length = totalBytes + fragment.total + crcBytes ∧
        crc32Mpeg fragment.covered = 0 ∧
        ∃ high low, fragment.covered[totalBytes]? = some high ∧
          fragment.covered[totalBytes + 1]? = some low ∧
          skipExtensions (be16 high low) fragment.label
            ((fragment.covered.take (fragment.covered.length - crcBytes)).drop
              (totalBytes + protocolBytes + fragment.label.length)) = some (some pdu)

namespace Gse

variable {gse : Gse}

def Ok (gse : Gse) : Prop := ∀ id fragment, gse.partials id = some fragment → fragment.Ok

/-- A packet was dealt with and what came out of it is checked. -/
def Safe (outcome : Option Outcome) : Prop :=
  ∃ kept next out, outcome = some (kept, next, out) ∧ next.Ok ∧ ∀ delivery ∈ out, delivery.Checked

theorem safe_silent (hok : gse.Ok) (kept : Bool) : Safe (some (kept, gse, [])) :=
  ⟨kept, gse, [], rfl, hok, fun _ hmem ↦ absurd hmem List.not_mem_nil⟩

theorem Ok.setPartial (hok : gse.Ok) (id : UInt8) {fragment : Option Fragment}
    (hfragment : ∀ held, fragment = some held → held.Ok) : (gse.setPartial id fragment).Ok := by
  intro other held hheld
  simp only [Gse.setPartial] at hheld
  split_ifs at hheld
  · exact hfragment held hheld
  · exact hok other held hheld

theorem deliver_safe (hok : gse.Ok) {as : GsePdu → Delivery} {protocol : ℕ} {label data : List UInt8}
    (has : ∀ pdu, skipExtensions protocol label data = some (some pdu) → (as pdu).Checked) :
    Safe (gse.deliver as protocol label data) := by
  obtain ⟨pdu, hpdu⟩ := skipExtensions_some protocol label data
  rw [deliver, hpdu]
  cases pdu with
  | none => exact safe_silent hok false
  | some pdu =>
    refine ⟨true, _, _, rfl, hok, ?_⟩
    intro delivery hmem
    rw [List.mem_singleton.mp hmem]
    exact has pdu hpdu

theorem hold_safe (hok : gse.Ok) (id : UInt8) (protocol total : ℕ) (label data : List UInt8) :
    Safe (some (gse.hold id protocol total label data)) := by
  unfold hold
  split_ifs with hbad
  · exact safe_silent hok false
  all_goals
    apply safe_silent
    apply Ok.setPartial hok
    intro held hheld
    obtain rfl := Option.some.inj hheld
    constructor
    · exact Nat.zero_lt_succ 254
    · rfl
    · exact Nat.not_lt.mp fun h ↦ hbad (Or.inr h)
    · simp only
      omega
    · simp only [List.length_append, length_toBe16, totalBytes, protocolBytes]
      omega

theorem begin_safe (hok : gse.Ok) (id : Option UInt8) (fin : Bool) (labelType : ℕ)
    (body : List UInt8) : Safe (gse.begin id fin labelType body) := by
  unfold begin
  split
  · exact safe_silent hok false
  · split
    · split
      · exact safe_silent hok false
      · rename_i label cursor next hlabel
        have hnext : next.Ok := by
          unfold readLabel at hlabel
          split at hlabel
          · obtain ⟨taken, -, htaken⟩ := Option.map_eq_some_iff.mp hlabel
            cases htaken
            exact hok
          · split_ifs at hlabel
            cases hlabel
            exact hok
        split
        · exact safe_silent hnext false
        · split_ifs
          · exact safe_silent hnext false
          · exact deliver_safe hnext fun _ _ ↦ trivial
          · split
            · exact safe_silent hnext false
            · exact hold_safe hnext _ _ _ _ _
    · exact safe_silent hok false

theorem finish_safe (hok : gse.Ok) {fragment : Fragment} (hfragment : fragment.Ok) :
    Safe (gse.finish fragment) := by
  unfold finish
  split_ifs with hlength hcheck
  · exact safe_silent hok false
  · apply safe_silent
    exact hok
  · have hlabel := hfragment.label_le
    rw [not_not] at hlength hcheck
    simp only [totalBytes, protocolBytes, crcBytes] at hlength hlabel
    obtain ⟨high, hhigh⟩ := getElem?_some
      (show totalBytes < fragment.covered.length by rw [totalBytes]; omega)
    obtain ⟨low, hlow⟩ := getElem?_some
      (show totalBytes + 1 < fragment.covered.length by rw [totalBytes]; omega)
    rw [hhigh, hlow, slice_eq (by simp only [totalBytes, protocolBytes, crcBytes]; omega)
      (Nat.sub_le _ _)]
    apply deliver_safe hok
    intro pdu hpdu
    exact ⟨hfragment.declared, hlength, hcheck, high, low, hhigh, hlow, hpdu⟩

theorem extend_safe (hok : gse.Ok) (id : UInt8) (fin : Bool) (body : List UInt8) :
    Safe (gse.extend id fin body) := by
  unfold extend
  cases hheld : gse.partials id with
  | none => exact safe_silent hok false
  | some fragment =>
    have hfragment := hok id fragment hheld
    have hhead := hfragment.head_le
    have hlonger : Fragment.Ok { fragment with covered := fragment.covered ++ body } := by
      refine ⟨hfragment.alive, ?_, hfragment.total_le, hfragment.label_le, ?_⟩
      · simp only
        rw [List.take_append_of_le_length (by simp only [totalBytes, protocolBytes] at hhead ⊢; omega)]
        exact hfragment.declared
      · simp only [List.length_append]
        omega
    simp only
    split_ifs
    · exact safe_silent (hok.setPartial id fun held hheld ↦ by cases hheld) false
    · apply safe_silent
      apply Ok.setPartial hok
      intro held hheld
      rw [← Option.some.inj hheld]
      exact hlonger
    · apply finish_safe _ hlonger
      exact Ok.setPartial hok id fun held hheld ↦ by cases hheld

theorem unit_safe (hok : gse.Ok) (start fin : Bool) (labelType : ℕ) (body : List UInt8) :
    Safe (gse.unit start fin labelType body) := by
  unfold unit
  cases hid : body[0]? with
  | none =>
    split_ifs
    · exact begin_safe hok _ _ _ _
    all_goals exact safe_silent hok false
  | some id =>
    have hlong : 1 ≤ body.length := (List.getElem?_eq_some_iff.mp hid).1
    simp only [slice_rest hlong, Option.bind_eq_bind, Option.bind_some]
    split_ifs
    · exact begin_safe hok _ _ _ _
    · exact begin_safe hok _ _ _ _
    · exact extend_safe hok _ _ _
    · exact safe_silent hok false

theorem packets_safe (field : List UInt8) {fuel at₀ : ℕ} (hfuel : field.length < at₀ + fuel)
    (hat : at₀ ≤ field.length) (hok : gse.Ok) :
    ∃ next out, packets field fuel at₀ gse = some (next, out) ∧ next.Ok ∧
      ∀ delivery ∈ out, delivery.Checked := by
  induction fuel generalizing at₀ gse with
  | zero => omega
  | succ fuel ih =>
    have hsilent : ∀ next : Gse, next.Ok → ∃ after out, some (next, []) = some (after, out) ∧
        after.Ok ∧ ∀ delivery ∈ out, Delivery.Checked delivery := fun next hnext ↦
      ⟨next, [], rfl, hnext, fun _ hmem ↦ absurd hmem List.not_mem_nil⟩
    rw [packets]
    split_ifs with hroom
    · obtain ⟨high, hhigh⟩ := getElem?_some (show at₀ < field.length by omega)
      obtain ⟨low, hlow⟩ := getElem?_some (show at₀ + 1 < field.length by omega)
      simp only [hhigh, hlow, Option.bind_eq_bind, Option.bind_some]
      split_ifs with hend hlength
      · exact hsilent gse hok
      · exact hsilent gse.drop hok
      · have hslice : slice field (at₀ + 2) (at₀ + 2 + be16 high low % 0x1000) = _ :=
          slice_eq (by omega) (by omega)
        obtain ⟨kept, next, out, hunit, hnext, hout⟩ := unit_safe hok
          (decide (be16 high low / 0x8000 % 2 = 1)) (decide (be16 high low / 0x4000 % 2 = 1))
          (be16 high low / 0x1000 % 4)
          ((field.take (at₀ + 2 + be16 high low % 0x1000)).drop (at₀ + 2))
        have hafter : Ok (if kept then next else next.drop) := by
          split_ifs
          · exact hnext
          · exact hnext
        obtain ⟨last, more, hmore, hlast, hchecked⟩ := ih
          (show field.length < at₀ + 2 + be16 high low % 0x1000 + fuel by omega) (by omega) hafter
        refine ⟨last, out ++ more, ?_, hlast, ?_⟩
        · simp only [hslice, Option.bind_some, hunit, hmore]
          rfl
        · intro delivery hmem
          rcases List.mem_append.mp hmem with hmem | hmem
          · exact hout delivery hmem
          · exact hchecked delivery hmem
    · exact hsilent gse hok

theorem expire_safe (hok : gse.Ok) : ∃ next, gse.expire = some next ∧ next.Ok := by
  unfold expire
  rw [if_neg]
  · refine ⟨_, rfl, ?_⟩
    intro id fragment hfragment
    obtain ⟨held, hheld, hnext⟩ := Option.bind_eq_some_iff.mp hfragment
    have hheldOk := hok id held hheld
    split_ifs at hnext with hover
    obtain rfl := Option.some.inj hnext
    exact ⟨Nat.pos_of_ne_zero hover, hheldOk.declared, hheldOk.total_le, hheldOk.label_le,
      hheldOk.head_le⟩
  · intro hany
    obtain ⟨id, -, hid⟩ := List.any_eq_true.mp hany
    obtain ⟨fragment, hfragment, hzero⟩ := (Option.any_eq_true _ _).mp hid
    have := (hok id fragment hfragment).alive
    rw [beq_iff_eq] at hzero
    omega

theorem push_safe (hok : gse.Ok) (field : List UInt8) :
    ∃ next out, gse.push field = some (next, out) ∧ next.Ok ∧
      ∀ delivery ∈ out, delivery.Checked := by
  obtain ⟨after, out, hpackets, hafter, hout⟩ :=
    packets_safe field (show field.length < 0 + (field.length + 1) by omega) (Nat.zero_le _)
      (show Ok { gse with labelValid := false } from hok)
  obtain ⟨next, hexpire, hnext⟩ := expire_safe hafter
  refine ⟨next, out, ?_, hnext, hout⟩
  simp only [push, hpackets, hexpire, Option.bind_eq_bind, Option.bind_some]
  rfl

theorem run_safe (hok : gse.Ok) (fields : List (List UInt8)) :
    ∃ next out, gse.run fields = some (next, out) ∧ next.Ok ∧
      ∀ delivery ∈ out, delivery.Checked := by
  induction fields generalizing gse with
  | nil => exact ⟨gse, [], rfl, hok, fun _ hmem ↦ absurd hmem List.not_mem_nil⟩
  | cons field fields ih =>
    obtain ⟨middle, out, hpush, hmiddle, hout⟩ := push_safe hok field
    obtain ⟨next, more, hrun, hnext, hmore⟩ := ih hmiddle
    refine ⟨next, out ++ more, ?_, hnext, ?_⟩
    · simp only [run, hpush, hrun, Option.bind_eq_bind, Option.bind_some]
      rfl
    · intro delivery hmem
      rcases List.mem_append.mp hmem with hmem | hmem
      · exact hout delivery hmem
      · exact hmore delivery hmem

end Gse

/-! ## What a sender sends -/

/-- What a slot holds of a datagram in flight. -/
def Flight.fragment (flight : Flight) : Fragment where
  label := flight.pdu.label
  total := flight.pdu.total
  covered := flight.pdu.covered flight.sent
  ttl := lifetime - flight.age

/-- The receiver is where the sender is. -/
structure Follows (gse : Gse) (sender : Sender) : Prop where
  partials : ∀ id, gse.partials id = (sender.flying id).map Flight.fragment
  sent : ∀ id flight, sender.flying id = some flight → flight.sent <+: flight.pdu.data
  label : ∀ label, sender.label = some label → gse.labelValid = true ∧ gse.label = label
  dropped : gse.metrics.dropped = 0
  crcErrors : gse.metrics.crcErrors = 0

namespace Gse

variable {gse : Gse} {sender : Sender}

theorem slice_append (front part rest : List UInt8) :
    slice (front ++ part ++ rest) front.length (front.length + part.length) = some part := by
  rw [slice_eq (Nat.le_add_right _ _) (by simp only [List.length_append]; omega),
    ← List.length_append, List.take_left, List.drop_left]

theorem slice_append_rest (front rest : List UInt8) :
    slice (front ++ rest) front.length (front ++ rest).length = some rest := by
  rw [slice_rest (by rw [List.length_append]; omega), List.drop_left]

theorem labelLength_labelType (pdu : Pdu) : labelLength pdu.labelType = some pdu.label.length := by
  unfold Pdu.labelType
  rcases pdu.label_length with hlength | hlength | hlength
  · rw [hlength]
    rfl
  · rw [hlength]
    rfl
  · rw [hlength]
    rfl

/-- The receiver after the label of a packet. -/
def labelled (gse : Gse) (pdu : Pdu) (reuse : Bool) : Gse :=
  if reuse then gse
  else { gse with label := pdu.label, labelValid := decide (0 < pdu.label.length) }

theorem readLabel_spec (hfollows : Follows gse sender) {pdu : Pdu} {reuse : Bool}
    (hreuse : reuse = true → sender.label = some pdu.label) (front rest : List UInt8) :
    gse.readLabel (if reuse then 3 else pdu.labelType)
        (front ++ (if reuse then [] else pdu.label) ++ rest) front.length =
      some (pdu.label, (front ++ (if reuse then [] else pdu.label)).length, gse.labelled pdu reuse) := by
  unfold readLabel labelled
  cases reuse with
  | true =>
    obtain ⟨hvalid, hlabel⟩ := hfollows.label _ (hreuse rfl)
    simp only [if_true, labelLength, hvalid, hlabel, List.append_nil]
    rfl
  | false =>
    simp only [Bool.false_eq_true, if_false, labelLength_labelType, slice_append, Option.map_some,
      List.length_append]

theorem follows_labelled (hfollows : Follows gse sender) (pdu : Pdu) (reuse : Bool) :
    Follows (gse.labelled pdu reuse) (sender.useLabel pdu reuse) := by
  unfold Gse.labelled Sender.useLabel
  cases reuse with
  | true => exact ⟨hfollows.partials, hfollows.sent, hfollows.label, hfollows.dropped,
      hfollows.crcErrors⟩
  | false =>
    refine ⟨hfollows.partials, hfollows.sent, ?_, hfollows.dropped, hfollows.crcErrors⟩
    intro label hlabel
    simp only [Bool.false_eq_true, if_false] at hlabel ⊢
    split_ifs at hlabel with hempty
    obtain rfl := Option.some.inj hlabel
    exact ⟨decide_eq_true (List.length_pos_iff.mpr hempty), rfl⟩

theorem deliver_plain (as : GsePdu → Delivery) (pdu : Pdu) :
    gse.deliver as pdu.protocol pdu.label pdu.data =
      some (true, { gse with metrics := { gse.metrics with pdus := gse.metrics.pdus + 1 } },
        [as pdu.toGsePdu]) := by
  rw [deliver, skipExtensions, if_pos pdu.protocol_ge]
  rfl

/-- A packet that starts a datagram is read up to its data. -/
theorem begin_eq (hfollows : Follows gse sender) {pdu : Pdu} {reuse fin : Bool}
    (hreuse : reuse = true → sender.label = some pdu.label) {id : Option UInt8} {total : ℕ}
    {front data : List UInt8}
    (htotal : readTotal fin (front ++ toBe16 pdu.protocol ++ (if reuse then [] else pdu.label) ++ data) =
      some (total, front.length)) (hdata : data.length ≤ maxPdu) :
    gse.begin id fin (if reuse then 3 else pdu.labelType)
        (front ++ toBe16 pdu.protocol ++ (if reuse then [] else pdu.label) ++ data) =
      if fin then (gse.labelled pdu reuse).deliver .whole pdu.protocol pdu.label data
      else
        match id with
        | none => some (false, gse.labelled pdu reuse, [])
        | some id => some ((gse.labelled pdu reuse).hold id pdu.protocol total pdu.label data) := by
  have hlabel := readLabel_spec hfollows hreuse (front ++ toBe16 pdu.protocol) data
  have hslice := slice_append_rest
    (front ++ toBe16 pdu.protocol ++ if reuse then [] else pdu.label) data
  have hhigh : (front ++ toBe16 pdu.protocol ++ (if reuse then [] else pdu.label) ++
      data)[front.length]? = some (UInt8.ofNat (pdu.protocol / 256)) := by
    rw [List.append_assoc, List.append_assoc, List.getElem?_append_right le_rfl, Nat.sub_self]
    rfl
  have hlow : (front ++ toBe16 pdu.protocol ++ (if reuse then [] else pdu.label) ++
      data)[front.length + 1]? = some (UInt8.ofNat pdu.protocol) := by
    rw [List.append_assoc, List.append_assoc, List.getElem?_append_right (Nat.le_add_right _ _),
      Nat.add_sub_cancel_left]
    rfl
  rw [List.length_append, length_toBe16] at hlabel
  unfold begin
  simp only [htotal, hhigh, hlow, protocolBytes, hlabel, hslice, be16_toBe16 pdu.protocol_lt]
  cases fin with
  | true => exact if_neg (Nat.not_lt.mpr hdata)
  | false => cases id <;> rfl

/-- A whole datagram comes out at once. -/
theorem unit_whole (hfollows : Follows gse sender) {pdu : Pdu} {reuse : Bool}
    (hreuse : reuse = true → sender.label = some pdu.label) :
    ∃ next, gse.unit true true (if reuse then 3 else pdu.labelType)
        (toBe16 pdu.protocol ++ (if reuse then [] else pdu.label) ++ pdu.data) =
          some (true, next, [.whole pdu.toGsePdu]) ∧ Follows next (sender.useLabel pdu reuse) := by
  have hnext := follows_labelled hfollows pdu reuse
  have hmax : pdu.data.length ≤ maxPdu := by
    have := pdu.total_le
    omega
  have hbegin : gse.begin none true (if reuse then 3 else pdu.labelType)
      ([] ++ toBe16 pdu.protocol ++ (if reuse then [] else pdu.label) ++ pdu.data) = _ :=
    begin_eq hfollows hreuse rfl hmax
  rw [List.nil_append, if_pos rfl, deliver_plain] at hbegin
  unfold unit
  rw [Bool.and_self, if_pos rfl, hbegin]
  exact ⟨_, rfl, ⟨hnext.partials, hnext.sent, hnext.label, hnext.dropped, hnext.crcErrors⟩⟩

/-- A slot changes with the datagram in flight under its id. -/
theorem follows_set (hfollows : Follows gse sender) (id : UInt8) (flight : Option Flight)
    (hsent : ∀ flown ∈ flight, flown.sent <+: flown.pdu.data) :
    Follows (gse.setPartial id (flight.map Flight.fragment)) (sender.setFlying id flight) := by
  refine ⟨?_, ?_, hfollows.label, hfollows.dropped, hfollows.crcErrors⟩
  · intro other
    simp only [setPartial, Sender.setFlying]
    split_ifs
    · rfl
    · exact hfollows.partials other
  · intro other flown hflown
    simp only [Sender.setFlying] at hflown
    split_ifs at hflown
    · exact hsent flown hflown
    · exact hfollows.sent other flown hflown

theorem follows_counted (hfollows : Follows gse sender) (fragments pdus : ℕ) :
    Follows { gse with metrics := { gse.metrics with fragments := fragments, pdus := pdus } } sender :=
  ⟨hfollows.partials, hfollows.sent, hfollows.label, hfollows.dropped, hfollows.crcErrors⟩

theorem hold_free {id : UInt8} (hfree : gse.partials id = none) {protocol total : ℕ}
    {label data : List UInt8} (hfits : protocolBytes + label.length + data.length ≤ total)
    (hmax : total ≤ maxPdu) :
    gse.hold id protocol total label data =
      (true, Gse.setPartial
        { gse with metrics := { gse.metrics with fragments := gse.metrics.fragments + 1 } } id
        (some ⟨label, total, toBe16 total ++ toBe16 protocol ++ label ++ data, lifetime⟩), []) := by
  unfold hold
  rw [if_neg (by omega), hfree, if_neg (by decide)]

/-- The first fragment of a datagram takes the slot of its id. -/
theorem unit_first (hfollows : Follows gse sender) {id : UInt8} {pdu : Pdu} {reuse : Bool}
    (hreuse : reuse = true → sender.label = some pdu.label) {piece : List UInt8}
    (hpiece : piece <+: pdu.data) (hfree : sender.flying id = none) :
    ∃ next, gse.unit true false (if reuse then 3 else pdu.labelType)
        (id :: (toBe16 pdu.total ++ toBe16 pdu.protocol ++ (if reuse then [] else pdu.label) ++ piece)) =
          some (true, next, []) ∧
      Follows next ((sender.useLabel pdu reuse).setFlying id (some ⟨pdu, piece, 0⟩)) := by
  have hnext := follows_labelled hfollows pdu reuse
  have htotal := pdu.total_le
  have hlength := hpiece.length_le
  have hmax : piece.length ≤ maxPdu := by omega
  have hread : readTotal false (toBe16 pdu.total ++ toBe16 pdu.protocol ++
      (if reuse then [] else pdu.label) ++ piece) = some (pdu.total, (toBe16 pdu.total).length) := by
    rw [readTotal, if_neg (by decide), List.append_assoc, List.append_assoc]
    change some (be16 _ _, _) = _
    rw [be16_toBe16 (by rw [Pdu.total]; simp only [maxPdu] at htotal; omega)]
    rfl
  have hbegin : gse.begin (some id) false (if reuse then 3 else pdu.labelType)
      (toBe16 pdu.total ++ toBe16 pdu.protocol ++ (if reuse then [] else pdu.label) ++ piece) = _ :=
    begin_eq hfollows hreuse hread hmax
  have hempty : (gse.labelled pdu reuse).partials id = none := by
    rw [hnext.partials]
    change (sender.flying id).map _ = _
    rw [hfree]
    rfl
  simp only [Bool.false_eq_true, if_false] at hbegin
  have hfits : protocolBytes + pdu.label.length + piece.length ≤ pdu.total := by
    rw [Pdu.total]
    omega
  rw [hold_free hempty hfits htotal] at hbegin
  unfold unit
  rw [Bool.and_false, if_neg (by decide)]
  simp only [List.getElem?_cons_zero]
  rw [slice_rest (by rw [List.length_cons]; omega), List.drop_succ_cons, List.drop_zero,
    Option.bind_eq_bind, Option.bind_some, if_pos trivial, hbegin]
  refine ⟨_, rfl, ?_⟩
  apply follows_set (follows_counted hnext _ _) id (some ⟨pdu, piece, 0⟩)
  intro flown hflown
  cases hflown
  exact hpiece

theorem length_covered (pdu : Pdu) (data : List UInt8) :
    (pdu.covered data).length = totalBytes + protocolBytes + pdu.label.length + data.length := by
  simp only [Pdu.covered, List.length_append, length_toBe16, totalBytes, protocolBytes]

/-- A later fragment goes to the slot of its id. -/
theorem unit_extend (gse : Gse) (fin : Bool) (id : UInt8) (piece : List UInt8) :
    gse.unit false fin 3 (id :: piece) = gse.extend id fin piece := by
  unfold unit
  rw [Bool.false_and, if_neg (by decide)]
  simp only [List.getElem?_cons_zero]
  rw [slice_rest (by rw [List.length_cons]; omega), List.drop_succ_cons, List.drop_zero,
    Option.bind_eq_bind, Option.bind_some, if_neg (by decide), if_pos trivial]

theorem unit_middle (hfollows : Follows gse sender) {id : UInt8} {flight : Flight}
    {piece : List UInt8} (hflight : sender.flying id = some flight)
    (hpiece : flight.sent ++ piece <+: flight.pdu.data) :
    ∃ next, gse.unit false false 3 (id :: piece) = some (true, next, []) ∧
      Follows next (sender.setFlying id (some { flight with sent := flight.sent ++ piece })) := by
  have hheld : gse.partials id = some flight.fragment := by rw [hfollows.partials, hflight]; rfl
  have hlength := hpiece.length_le
  rw [List.length_append] at hlength
  have hfits : ¬totalBytes + flight.fragment.total + crcBytes <
      flight.fragment.covered.length + piece.length := by
    simp only [Flight.fragment, length_covered, Pdu.total, totalBytes, protocolBytes, crcBytes]
    omega
  rw [unit_extend, extend, hheld]
  simp only
  have hcovered : flight.fragment.covered ++ piece = flight.pdu.covered (flight.sent ++ piece) := by
    simp only [Flight.fragment, Pdu.covered, List.append_assoc]
  rw [if_neg hfits, Bool.not_false, if_pos rfl, hcovered]
  refine ⟨_, rfl, ?_⟩
  apply follows_set (follows_counted hfollows _ _) id
    (some { flight with sent := flight.sent ++ piece })
  intro flown hflown
  cases hflown
  exact hpiece

/-- A fragment that is whole and has its check is delivered. -/
theorem finish_plain (gse : Gse) (pdu : Pdu) (ttl : ℕ) :
    gse.finish ⟨pdu.label, pdu.total, pdu.covered pdu.data ++ pdu.check, ttl⟩ =
      some (true, { gse with metrics := { gse.metrics with pdus := gse.metrics.pdus + 1 } },
        [.joined ⟨pdu.label, pdu.total, pdu.covered pdu.data ++ pdu.check, ttl⟩ pdu.toGsePdu]) := by
  have hcheck : pdu.check.length = crcBytes := rfl
  have hlength : (pdu.covered pdu.data ++ pdu.check).length = totalBytes + pdu.total + crcBytes := by
    rw [List.length_append, length_covered, hcheck, Pdu.total]
    omega
  have hcrc : crc32Mpeg (pdu.covered pdu.data ++ pdu.check) = 0 := crc32Mpeg_append_check _
  have hstop : (pdu.covered pdu.data ++ pdu.check).length - crcBytes =
      (toBe16 pdu.total ++ toBe16 pdu.protocol ++ pdu.label).length + pdu.data.length := by
    rw [hlength, Pdu.total]
    simp only [List.length_append, length_toBe16, totalBytes, protocolBytes]
    omega
  have hslice : slice (pdu.covered pdu.data ++ pdu.check)
      (totalBytes + protocolBytes + pdu.label.length)
      ((pdu.covered pdu.data ++ pdu.check).length - crcBytes) = some pdu.data := by
    have hstart : totalBytes + protocolBytes + pdu.label.length =
        (toBe16 pdu.total ++ toBe16 pdu.protocol ++ pdu.label).length := by
      simp only [List.length_append, length_toBe16, totalBytes, protocolBytes]
    rw [hstart, hstop]
    exact slice_append _ _ _
  have hhigh : (pdu.covered pdu.data ++ pdu.check)[totalBytes]? =
      some (UInt8.ofNat (pdu.protocol / 256)) := by
    simp only [Pdu.covered, List.append_assoc]
    rfl
  have hlow : (pdu.covered pdu.data ++ pdu.check)[totalBytes + 1]? =
      some (UInt8.ofNat pdu.protocol) := by
    simp only [Pdu.covered, List.append_assoc]
    rfl
  unfold finish
  simp only [hlength, hcrc, ne_eq, not_true_eq_false, if_false, hhigh, hlow, Option.bind_eq_bind,
    Option.bind_some, be16_toBe16 pdu.protocol_lt]
  rw [← hlength, hslice, Option.bind_some, deliver_plain]

/-- The last fragment brings the check, and the datagram comes out. -/
theorem unit_last (hfollows : Follows gse sender) {id : UInt8} {flight : Flight}
    {piece : List UInt8} (hflight : sender.flying id = some flight)
    (hpiece : flight.sent ++ piece = flight.pdu.data) :
    ∃ next fragment, gse.unit false true 3 (id :: (piece ++ flight.pdu.check)) =
        some (true, next, [.joined fragment flight.pdu.toGsePdu]) ∧
      Follows next (sender.setFlying id none) := by
  have hheld : gse.partials id = some flight.fragment := by rw [hfollows.partials, hflight]; rfl
  have hcovered : flight.fragment.covered ++ (piece ++ flight.pdu.check) =
      flight.pdu.covered flight.pdu.data ++ flight.pdu.check := by
    rw [← hpiece]
    simp only [Flight.fragment, Pdu.covered, List.append_assoc]
  have hlength : flight.fragment.covered.length + (piece ++ flight.pdu.check).length =
      totalBytes + flight.fragment.total + crcBytes := by
    rw [← List.length_append, hcovered, List.length_append, length_covered]
    simp only [Pdu.check, length_toBe32, Flight.fragment, Pdu.total, crcBytes]
    omega
  rw [unit_extend, extend, hheld]
  simp only
  rw [if_neg (by rw [hlength]; exact lt_irrefl _), hcovered]
  simp only [Bool.not_true, Bool.false_eq_true, if_false]
  refine ⟨_, _, finish_plain _ flight.pdu (lifetime - flight.age), ?_⟩
  apply follows_counted (follows_set (follows_counted hfollows _ _) id none ?_) _ _
  exact fun flown hflown ↦ by cases hflown

theorem labelType_lt (pdu : Pdu) (reuse : Bool) : (if reuse then 3 else pdu.labelType) < 4 := by
  unfold Pdu.labelType
  split_ifs
  all_goals omega

/-- The receiver keeps up with a packet that may be sent. -/
theorem send_spec (hfollows : Follows gse sender) {packet : Packet} {bytes : List UInt8}
    {after : Sender} (hsend : sender.send packet = some (bytes, after)) :
    ∃ start fin labelType body next out, bytes = encodePacket start fin labelType body ∧
      0 < body.length ∧ body.length < 0x1000 ∧ labelType < 4 ∧
      gse.unit start fin labelType body = some (true, next, out) ∧ Follows next after ∧
      after.completed.map Pdu.toGsePdu = sender.completed.map Pdu.toGsePdu ++ out.map Delivery.pdu := by
  cases packet with
  | whole pdu reuse =>
    simp only [Sender.send, Option.ite_none_right_eq_some] at hsend
    obtain ⟨hvalid, hsend⟩ := hsend
    obtain ⟨rfl, rfl⟩ := Prod.mk.inj (Option.some.inj hsend)
    obtain ⟨next, hunit, hnext⟩ := unit_whole hfollows hvalid.1
    refine ⟨true, true, _, _, next, _, rfl, ?_, hvalid.2, labelType_lt pdu reuse, hunit,
      ⟨hnext.partials, hnext.sent, hnext.label, hnext.dropped, hnext.crcErrors⟩, ?_⟩
    · simp only [List.length_append, length_toBe16]
      omega
    · rw [List.map_append]
      rfl
  | first id pdu reuse piece =>
    simp only [Sender.send, Option.ite_none_right_eq_some] at hsend
    obtain ⟨hvalid, hsend⟩ := hsend
    obtain ⟨rfl, rfl⟩ := Prod.mk.inj (Option.some.inj hsend)
    obtain ⟨hreuse, hlength, hpiece, hfree⟩ := hvalid
    obtain ⟨next, hunit, hnext⟩ := unit_first hfollows hreuse
      (List.isPrefixOf_iff_prefix.mp hpiece) (Option.isNone_iff_eq_none.mp hfree)
    refine ⟨true, false, _, _, next, [], rfl, Nat.succ_pos _, hlength, labelType_lt pdu reuse, hunit,
      ⟨hnext.partials, hnext.sent, hnext.label, hnext.dropped, hnext.crcErrors⟩, ?_⟩
    exact (List.append_nil _).symm
  | middle id piece =>
    simp only [Sender.send] at hsend
    cases hflight : sender.flying id with
    | none => rw [hflight] at hsend; cases hsend
    | some flight =>
      rw [hflight] at hsend
      simp only at hsend
      split_ifs at hsend with hvalid
      obtain ⟨rfl, rfl⟩ := Prod.mk.inj (Option.some.inj hsend)
      obtain ⟨next, hunit, hnext⟩ :=
        unit_middle hfollows hflight (List.isPrefixOf_iff_prefix.mp hvalid.2)
      exact ⟨false, false, 3, _, next, [], rfl, Nat.succ_pos _, hvalid.1, by decide, hunit, hnext,
        (List.append_nil _).symm⟩
  | last id piece =>
    simp only [Sender.send] at hsend
    cases hflight : sender.flying id with
    | none => rw [hflight] at hsend; cases hsend
    | some flight =>
      rw [hflight] at hsend
      simp only at hsend
      split_ifs at hsend with hvalid
      obtain ⟨rfl, rfl⟩ := Prod.mk.inj (Option.some.inj hsend)
      obtain ⟨next, fragment, hunit, hnext⟩ := unit_last hfollows hflight hvalid.2
      refine ⟨false, true, 3, _, next, _, rfl, Nat.succ_pos _, hvalid.1, by decide, hunit,
        ⟨hnext.partials, hnext.sent, hnext.label, hnext.dropped, hnext.crcErrors⟩, ?_⟩
      rw [List.map_append]
      rfl

/-! ## Fields -/

theorem word_bits (start fin : Bool) {labelType length : ℕ} (htype : labelType < 4)
    (hlength : length < 0x1000) :
    ∀ word, word = (if start then 0x8000 else 0) + (if fin then 0x4000 else 0) +
        labelType * 0x1000 + length →
      word < 0x10000 ∧ word % 0x1000 = length ∧ decide (word / 0x8000 % 2 = 1) = start ∧
        decide (word / 0x4000 % 2 = 1) = fin ∧ word / 0x1000 % 4 = labelType := by
  intro word hword
  cases start <;> cases fin <;>
    simp only [if_true, Bool.false_eq_true, if_false, decide_eq_true_iff, decide_eq_false_iff_not]
      at hword ⊢ <;> omega

/-- A packet in a field is read and the next one stands behind it. -/
theorem packets_encode {start fin : Bool} {labelType : ℕ} {body : List UInt8}
    (hpositive : 0 < body.length) (hlength : body.length < 0x1000) (htype : labelType < 4)
    {next : Gse} {out : List Delivery}
    (hunit : gse.unit start fin labelType body = some (true, next, out)) (front rest : List UInt8)
    (fuel : ℕ) :
    packets (front ++ encodePacket start fin labelType body ++ rest) (fuel + 1) front.length gse =
      (packets (front ++ encodePacket start fin labelType body ++ rest) fuel
        (front ++ encodePacket start fin labelType body).length next).map fun after ↦
          (after.1, out ++ after.2) := by
  obtain ⟨hword, hmod, hstart, hfin, hlabel⟩ := word_bits start fin htype hlength _ rfl
  unfold encodePacket
  generalize hdef : (if start then 0x8000 else 0) + (if fin then 0x4000 else 0) +
    labelType * 0x1000 + body.length = word at hword hmod hstart hfin hlabel
  have hhigh : (front ++ (toBe16 word ++ body) ++ rest)[front.length]? =
      some (UInt8.ofNat (word / 256)) := by
    rw [List.append_assoc, List.getElem?_append_right le_rfl, Nat.sub_self]
    rfl
  have hlow : (front ++ (toBe16 word ++ body) ++ rest)[front.length + 1]? =
      some (UInt8.ofNat word) := by
    rw [List.append_assoc, List.getElem?_append_right (Nat.le_add_right _ _),
      Nat.add_sub_cancel_left]
    rfl
  have hslice : slice (front ++ (toBe16 word ++ body) ++ rest) (front.length + 2)
      (front.length + 2 + body.length) = some body := by
    have hfront : front.length + 2 = (front ++ toBe16 word).length := by
      rw [List.length_append, length_toBe16]
    rw [hfront, ← List.append_assoc front]
    exact slice_append _ _ _
  have hbehind : front.length + 2 + body.length = (front ++ (toBe16 word ++ body)).length := by
    simp only [List.length_append, length_toBe16]
    omega
  have hroom : front.length + 2 ≤ (front ++ (toBe16 word ++ body) ++ rest).length := by
    simp only [List.length_append, length_toBe16]
    omega
  have hinside : ¬(body.length = 0 ∨
      (front ++ (toBe16 word ++ body) ++ rest).length < front.length + 2 + body.length) := by
    simp only [List.length_append, length_toBe16]
    omega
  have hnonzero : word ≠ 0 := by omega
  rw [packets, if_pos hroom]
  simp only [hhigh, hlow, Option.bind_eq_bind, Option.bind_some, be16_toBe16 hword, hmod, hstart, hfin,
    hlabel, if_neg hnonzero, if_neg hinside, hslice, hunit, if_true]
  rw [hbehind]
  cases packets (front ++ (toBe16 word ++ body) ++ rest) fuel
    (front ++ (toBe16 word ++ body)).length next <;> rfl

/-- Padding ends a field. -/
theorem packets_padding (front : List UInt8) (padding fuel : ℕ) :
    packets (front ++ List.replicate padding 0) (fuel + 1) front.length gse = some (gse, []) := by
  rw [packets]
  split_ifs with hroom
  · rw [List.length_append, List.length_replicate] at hroom
    have hzero : ∀ i < padding, (front ++ List.replicate padding (0 : UInt8))[front.length + i]? =
        some 0 := by
      intro i hi
      rw [List.getElem?_append_right (Nat.le_add_right _ _), Nat.add_sub_cancel_left,
        List.getElem?_replicate, if_pos hi]
    have hfirst := hzero 0 (by omega)
    have hsecond := hzero 1 (by omega)
    rw [Nat.add_zero] at hfirst
    have hword : be16 (0 : UInt8) 0 = 0 := rfl
    simp only [hfirst, hsecond, Option.bind_eq_bind, Option.bind_some, hword, if_true]
    rfl
  · rfl

/-- The packets of a field are taken one after another. -/
theorem packets_send (hfollows : Follows gse sender) {list : List Packet} {bytes : List UInt8}
    {after : Sender} (hsend : sender.sendPackets list = some (bytes, after)) (front : List UInt8)
    (padding : ℕ) {fuel : ℕ} (hfuel : bytes.length < fuel) :
    ∃ next out, packets (front ++ bytes ++ List.replicate padding 0) fuel front.length gse =
        some (next, out) ∧ Follows next after ∧
      after.completed.map Pdu.toGsePdu = sender.completed.map Pdu.toGsePdu ++ out.map Delivery.pdu := by
  induction list generalizing gse sender bytes front fuel with
  | nil =>
    obtain ⟨rfl, rfl⟩ := Prod.mk.inj (Option.some.inj hsend)
    obtain ⟨fuel, rfl⟩ := Nat.exists_eq_succ_of_ne_zero (Nat.ne_zero_of_lt hfuel)
    rw [List.append_nil]
    exact ⟨gse, [], packets_padding front padding fuel, hfollows, (List.append_nil _).symm⟩
  | cons packet list ih =>
    rw [Sender.sendPackets] at hsend
    obtain ⟨⟨first, middle⟩, hfirst, hsend⟩ := Option.bind_eq_some_iff.mp hsend
    obtain ⟨⟨more, last⟩, hmore, hsend⟩ := Option.bind_eq_some_iff.mp hsend
    obtain ⟨rfl, rfl⟩ := Prod.mk.inj (Option.some.inj hsend)
    obtain ⟨start, fin, labelType, body, next, out, rfl, hpositive, hlength, htype, hunit, hnext,
      hcompleted⟩ := send_spec hfollows hfirst
    obtain ⟨fuel, rfl⟩ := Nat.exists_eq_succ_of_ne_zero (Nat.ne_zero_of_lt hfuel)
    have hshorter : more.length < fuel := by
      rw [List.length_append, encodePacket, List.length_append, length_toBe16] at hfuel
      omega
    obtain ⟨final, rest, hrest, hfinal, hall⟩ :=
      ih hnext hmore (front ++ encodePacket start fin labelType body) hshorter
    refine ⟨final, out ++ rest, ?_, hfinal, ?_⟩
    · have hstep := packets_encode hpositive hlength htype hunit front
        (more ++ List.replicate padding 0) fuel
      rw [← List.append_assoc, hrest, Option.map_some] at hstep
      rw [← hstep]
      simp only [List.append_assoc]
    · rw [hall, hcompleted, List.map_append, List.append_assoc]

/-- At the end of a field no fragment that the sender may still extend is given up. -/
theorem expire_follows (hfollows : Follows gse sender) {after : Sender}
    (hend : sender.endField = some after) :
    ∃ next, gse.expire = some next ∧ Follows next after ∧ after.completed = sender.completed := by
  simp only [Sender.endField, Option.ite_none_left_eq_some] at hend
  obtain ⟨hyoung, hend⟩ := hend
  obtain rfl := Option.some.inj hend
  have hage : ∀ id flight, sender.flying id = some flight → flight.age + 1 < lifetime := by
    intro id flight hflight
    by_contra hold
    apply hyoung
    rw [List.any_eq_true]
    refine ⟨id.toNat, List.mem_range.mpr id.toNat_lt, ?_⟩
    rw [UInt8.ofNat_toNat, hflight]
    exact decide_eq_true (Nat.not_lt.mp hold)
  have httl : ∀ id fragment, gse.partials id = some fragment → 1 < fragment.ttl := by
    intro id fragment hfragment
    rw [hfollows.partials, Option.map_eq_some_iff] at hfragment
    obtain ⟨flight, hflight, rfl⟩ := hfragment
    have := hage id flight hflight
    simp only [Flight.fragment]
    omega
  have hnone : ∀ ttl ≤ 1, ∀ id, ((gse.partials id).any fun fragment ↦ fragment.ttl == ttl) = false := by
    intro ttl hle id
    rw [Option.any_eq_false]
    intro fragment hfragment
    have := httl id fragment hfragment
    rw [beq_eq_false_iff_ne]
    omega
  unfold expire
  rw [if_neg]
  · refine ⟨_, rfl, ⟨?_, ?_, hfollows.label, ?_, hfollows.crcErrors⟩, rfl⟩
    · intro id
      simp only [hfollows.partials]
      cases hflight : sender.flying id with
      | none => rfl
      | some flight =>
        have := hage id flight hflight
        have hleft : (flight.fragment).ttl - 1 ≠ 0 := by
          simp only [Flight.fragment]
          omega
        rw [Option.map_some, Option.bind_some, if_neg hleft]
        simp only [Option.map_some, Flight.fragment]
        rw [Nat.sub_sub]
    · intro id flight hflight
      obtain ⟨before, hbefore, rfl⟩ := Option.map_eq_some_iff.mp hflight
      exact hfollows.sent id before hbefore
    · simp only [hfollows.dropped, Nat.zero_add, List.length_eq_zero_iff, List.filter_eq_nil_iff]
      intro id _
      rw [hnone 1 le_rfl id]
      decide
  · rw [List.any_eq_true]
    rintro ⟨id, -, hid⟩
    rw [hnone 0 (Nat.zero_le _) id] at hid
    cases hid

theorem run_follows (hfollows : Follows gse sender) {fields : List (List Packet × ℕ)}
    {bytes : List (List UInt8)} {after : Sender}
    (hsend : sender.sendFields fields = some (bytes, after)) :
    ∃ next out, gse.run bytes = some (next, out) ∧ Follows next after ∧
      after.completed.map Pdu.toGsePdu = sender.completed.map Pdu.toGsePdu ++ out.map Delivery.pdu := by
  induction fields generalizing gse sender bytes with
  | nil =>
    obtain ⟨rfl, rfl⟩ := Prod.mk.inj (Option.some.inj hsend)
    exact ⟨gse, [], rfl, hfollows, (List.append_nil _).symm⟩
  | cons field fields ih =>
    obtain ⟨list, padding⟩ := field
    rw [Sender.sendFields] at hsend
    obtain ⟨⟨sent, filled⟩, hfilled, hsend⟩ := Option.bind_eq_some_iff.mp hsend
    obtain ⟨aged, haged, hsend⟩ := Option.bind_eq_some_iff.mp hsend
    obtain ⟨⟨more, last⟩, hmore, hsend⟩ := Option.bind_eq_some_iff.mp hsend
    obtain ⟨rfl, rfl⟩ := Prod.mk.inj (Option.some.inj hsend)
    have hstart : Follows { gse with labelValid := false } { sender with label := none } :=
      ⟨hfollows.partials, hfollows.sent, fun _ hlabel ↦ (by cases hlabel), hfollows.dropped,
        hfollows.crcErrors⟩
    obtain ⟨taken, out, hpackets, htaken, hcompleted⟩ := packets_send hstart hfilled [] padding
      (show sent.length < (sent ++ List.replicate padding 0).length + 1 by
        rw [List.length_append]; omega)
    obtain ⟨expired, hexpire, hexpired, hsame⟩ := expire_follows htaken haged
    obtain ⟨final, rest, hrun, hfinal, hall⟩ := ih hexpired hmore
    refine ⟨final, out ++ rest, ?_, hfinal, ?_⟩
    · rw [List.nil_append, List.length_nil] at hpackets
      simp only [run, push, hpackets, hexpire, Option.bind_eq_bind, Option.bind_some, Option.pure_def,
        hrun]
    · rw [hall, hsame, hcompleted, List.map_append, List.append_assoc]

end Gse

/-! ## What was started and what was completed -/

namespace Sender

variable {sender : Sender}

/-- The datagrams in flight, slot by slot. -/
def inFlight (sender : Sender) : List Pdu :=
  ((List.range 256).map UInt8.ofNat).filterMap fun id ↦ (sender.flying id).map Flight.pdu

/-- Nothing was lost on the way: what was started is completed or in flight. -/
def Balanced (sender : Sender) : Prop := sender.started.Perm (sender.completed ++ sender.inFlight)

theorem nodup_ids : ((List.range 256).map UInt8.ofNat).Nodup := by
  apply List.Nodup.map_on _ List.nodup_range
  intro a ha b hb hab
  rw [List.mem_range] at ha hb
  have hsame := congrArg UInt8.toNat hab
  rwa [UInt8.toNat_ofNat_of_lt' ha, UInt8.toNat_ofNat_of_lt' hb] at hsame

theorem mem_ids (id : UInt8) : id ∈ (List.range 256).map UInt8.ofNat :=
  List.mem_map.mpr ⟨id.toNat, List.mem_range.mpr id.toNat_lt, UInt8.ofNat_toNat⟩

/-- Two families that differ only in that one has a value at `id` and the other has none. -/
theorem filterMap_perm_cons {ids : List UInt8} (hnodup : ids.Nodup) {id : UInt8} (hid : id ∈ ids)
    {without withId : UInt8 → Option Pdu} {pdu : Pdu} (hnone : without id = none)
    (hsome : withId id = some pdu) (hsame : ∀ other, other ≠ id → withId other = without other) :
    (ids.filterMap withId).Perm (pdu :: ids.filterMap without) := by
  induction ids with
  | nil => cases hid
  | cons head ids ih =>
    obtain ⟨hhead, hnodup⟩ := List.nodup_cons.mp hnodup
    by_cases heq : head = id
    · subst heq
      have htail : ids.filterMap withId = ids.filterMap without := by
        apply List.filterMap_congr
        intro other hother
        apply hsame
        rintro rfl
        exact hhead hother
      rw [List.filterMap_cons_some hsome, List.filterMap_cons_none hnone, htail]
    · have htail := ih hnodup ((List.mem_cons.mp hid).resolve_left fun h ↦ heq h.symm)
      have hat := hsame head heq
      cases hvalue : without head with
      | none =>
        rw [List.filterMap_cons_none (hat.trans hvalue), List.filterMap_cons_none hvalue]
        exact htail
      | some other =>
        rw [List.filterMap_cons_some (hat.trans hvalue), List.filterMap_cons_some hvalue]
        exact (htail.cons other).trans (List.Perm.swap pdu other _)

theorem inFlight_setFlying (sender : Sender) {id : UInt8} (flight : Flight)
    (hfree : sender.flying id = none) :
    (sender.setFlying id (some flight)).inFlight.Perm (flight.pdu :: sender.inFlight) := by
  apply filterMap_perm_cons nodup_ids (mem_ids id)
  · rw [hfree, Option.map_none]
  · simp only [setFlying, if_true, Option.map_some]
  · intro other hother
    simp only [setFlying, if_neg hother]

theorem Balanced.send (hbalanced : sender.Balanced) {packet : Packet} {bytes : List UInt8}
    {after : Sender} (hsend : sender.send packet = some (bytes, after)) : after.Balanced := by
  cases packet with
  | whole pdu reuse =>
    simp only [Sender.send, Option.ite_none_right_eq_some, Option.some.injEq, Prod.mk.injEq] at hsend
    obtain ⟨-, -, rfl⟩ := hsend
    apply (hbalanced.append_right [pdu]).trans
    rw [List.append_assoc]
    apply (List.perm_append_comm.append_left sender.completed).trans
    rw [← List.append_assoc]
    exact List.Perm.refl _
  | first id pdu reuse piece =>
    simp only [Sender.send, Option.ite_none_right_eq_some, Option.some.injEq, Prod.mk.injEq,
      Option.isNone_iff_eq_none] at hsend
    obtain ⟨⟨-, -, -, hfree⟩, -, rfl⟩ := hsend
    have hflying := inFlight_setFlying (sender.useLabel pdu reuse) ⟨pdu, piece, 0⟩ hfree
    apply (hbalanced.append_right [pdu]).trans
    rw [List.append_assoc]
    apply List.Perm.append_left sender.completed
    exact List.perm_append_comm.trans hflying.symm
  | middle id piece =>
    simp only [Sender.send] at hsend
    split at hsend
    · cases hsend
    · next flight hflight =>
      simp only [Option.ite_none_right_eq_some, Option.some.injEq, Prod.mk.injEq] at hsend
      obtain ⟨-, -, rfl⟩ := hsend
      have hflying : (sender.setFlying id
          (some { flight with sent := flight.sent ++ piece })).inFlight = sender.inFlight := by
        apply List.filterMap_congr
        intro other _
        simp only [setFlying]
        split_ifs with heq
        · rw [heq, hflight]
          rfl
        · rfl
      rw [Balanced, hflying]
      exact hbalanced
  | last id piece =>
    simp only [Sender.send] at hsend
    split at hsend
    · cases hsend
    · next flight hflight =>
      simp only [Option.ite_none_right_eq_some, Option.some.injEq, Prod.mk.injEq] at hsend
      obtain ⟨-, -, rfl⟩ := hsend
      have hflying : sender.inFlight.Perm (flight.pdu :: (sender.setFlying id none).inFlight) := by
        apply filterMap_perm_cons nodup_ids (mem_ids id)
        · simp only [setFlying, if_true, Option.map_none]
        · rw [hflight, Option.map_some]
        · intro other hother
          simp only [setFlying, if_neg hother]
      apply (hbalanced.trans (hflying.append_left sender.completed)).trans
      rw [List.append_cons]
      exact List.Perm.refl _

theorem Balanced.sendPackets (hbalanced : sender.Balanced) {list : List Packet} {bytes : List UInt8}
    {after : Sender} (hsend : sender.sendPackets list = some (bytes, after)) : after.Balanced := by
  induction list generalizing sender bytes with
  | nil =>
    obtain ⟨-, rfl⟩ := Prod.mk.inj (Option.some.inj hsend)
    exact hbalanced
  | cons packet list ih =>
    rw [Sender.sendPackets] at hsend
    obtain ⟨⟨first, middle⟩, hfirst, hsend⟩ := Option.bind_eq_some_iff.mp hsend
    obtain ⟨⟨more, last⟩, hmore, hsend⟩ := Option.bind_eq_some_iff.mp hsend
    obtain ⟨-, rfl⟩ := Prod.mk.inj (Option.some.inj hsend)
    exact ih (hbalanced.send hfirst) hmore

theorem Balanced.endField (hbalanced : sender.Balanced) {after : Sender}
    (hend : sender.endField = some after) : after.Balanced := by
  simp only [Sender.endField, Option.ite_none_left_eq_some] at hend
  obtain rfl := Option.some.inj hend.2
  rw [Balanced, inFlight]
  simp only [Option.map_map]
  exact hbalanced

theorem Balanced.sendFields (hbalanced : sender.Balanced) {fields : List (List Packet × ℕ)}
    {bytes : List (List UInt8)} {after : Sender}
    (hsend : sender.sendFields fields = some (bytes, after)) : after.Balanced := by
  induction fields generalizing sender bytes with
  | nil =>
    obtain ⟨-, rfl⟩ := Prod.mk.inj (Option.some.inj hsend)
    exact hbalanced
  | cons field fields ih =>
    rw [Sender.sendFields] at hsend
    obtain ⟨⟨sent, filled⟩, hfilled, hsend⟩ := Option.bind_eq_some_iff.mp hsend
    obtain ⟨aged, haged, hsend⟩ := Option.bind_eq_some_iff.mp hsend
    obtain ⟨⟨more, last⟩, hmore, hsend⟩ := Option.bind_eq_some_iff.mp hsend
    obtain ⟨-, rfl⟩ := Prod.mk.inj (Option.some.inj hsend)
    have hunlabelled : Balanced { sender with label := none } := hbalanced
    exact ih ((hunlabelled.sendPackets hfilled).endField haged) hmore

theorem balanced_start : ({} : Sender).Balanced := by
  have hnone : inFlight {} = [] := by
    rw [inFlight, List.filterMap_eq_nil_iff]
    intro id _
    rfl
  rw [Balanced, hnone]
  exact List.Perm.nil

end Sender

theorem follows_start : Follows {} {} where
  partials _ := rfl
  sent _ _ hflight := by cases hflight
  label _ hlabel := by cases hlabel
  dropped := rfl
  crcErrors := rfl

/-- Whatever a sender may put into fields comes out in the order in which it is completed, each datagram
once and as it was, with nothing dropped.  And whatever the fields hold, every push ends within its field
and what was joined from fragments has passed its check. -/
theorem datagrams_exactly_once :
    (∀ fields bytes sender, Sender.sendFields {} fields = some (bytes, sender) →
      ∃ gse out, Gse.run {} bytes = some (gse, out) ∧
        out.map Delivery.pdu = sender.completed.map Pdu.toGsePdu ∧
        gse.metrics.dropped = 0 ∧ gse.metrics.crcErrors = 0 ∧
        ((∀ id, sender.flying id = none) → sender.started.Perm sender.completed)) ∧
    ∀ fields, ∃ gse out, Gse.run {} fields = some (gse, out) ∧
      ∀ delivery ∈ out, delivery.Checked := by
  constructor
  · intro fields bytes sender hsend
    obtain ⟨gse, out, hrun, hfollows, hcompleted⟩ := Gse.run_follows follows_start hsend
    refine ⟨gse, out, hrun, hcompleted.symm, hfollows.dropped, hfollows.crcErrors, ?_⟩
    intro hlanded
    have hbalanced := Sender.balanced_start.sendFields hsend
    have hnone : sender.inFlight = [] := by
      rw [Sender.inFlight, List.filterMap_eq_nil_iff]
      intro id _
      rw [hlanded id, Option.map_none]
    rw [Sender.Balanced, hnone, List.append_nil] at hbalanced
    exact hbalanced
  · intro fields
    have hok : ({} : Gse).Ok := fun _ _ hfragment ↦ by cases hfragment
    obtain ⟨gse, out, hrun, -, hchecked⟩ := Gse.run_safe hok fields
    exact ⟨gse, out, hrun, hchecked⟩

/-- A datagram without a label, of two bytes. -/
def shortPdu (first second : UInt8) : Pdu where
  protocol := 0x0800
  label := []
  data := [first, second]
  protocol_ge := by decide
  protocol_lt := by decide
  label_length := .inl rfl
  total_le := show 4 ≤ 65535 by decide

/-- Two datagrams of which the one that starts last ends first, over two fields. -/
def twoInterleaved : List (List Packet × ℕ) :=
  [([.first 0 (shortPdu 1 2) false [1], .first 1 (shortPdu 3 4) false [3], .last 1 [4]], 3),
    ([.last 0 [2]], 0)]

theorem datagrams_exactly_once_interleaved : ∃ bytes sender gse out,
    Sender.sendFields {} twoInterleaved = some (bytes, sender) ∧ Gse.run {} bytes = some (gse, out) ∧
      out.map Delivery.pdu = [(shortPdu 3 4).toGsePdu, (shortPdu 1 2).toGsePdu] := by
  have hcompleted : (Sender.sendFields {} twoInterleaved).map
      (fun sent ↦ sent.2.completed.map Pdu.toGsePdu) =
        some [(shortPdu 3 4).toGsePdu, (shortPdu 1 2).toGsePdu] := by decide +kernel
  obtain ⟨⟨bytes, sender⟩, hsend, hdone⟩ := Option.map_eq_some_iff.mp hcompleted
  obtain ⟨gse, out, hrun, hout, -⟩ := datagrams_exactly_once.1 twoInterleaved bytes sender hsend
  exact ⟨bytes, sender, gse, out, hsend, hrun, hout.trans hdone⟩

end Sdrmm.Dvbs2
