import Sdrmm.Channels.DabLabel
import Sdrmm.Channels.MotAssembly
import Mathlib.Data.List.Destutter

/-!
# Every label comes out once

The bytes of a group are joined over its subfields, whatever stands behind them; the segments of a label are
joined in the order of their numbers, whatever order they came in.  The message that a receiver holds of a
label is given by the indices that have come, so the label is shown with the first segment that completes it
and is not shown again by a repetition.
-/

namespace Sdrmm.DabLabel

/-! ## Reading what a sender writes -/

section Read

theorem high_bits : ∀ (toggle first last : Bool) (length : Fin 16),
    (Cut.high toggle first last length &&& 0x80 != 0) = toggle ∧
    (Cut.high toggle first last length &&& 0x40 != 0) = first ∧
    (Cut.high toggle first last length &&& 0x20 != 0) = last ∧
    Cut.high toggle first last length &&& 0x10 = 0 ∧
    (Cut.high toggle first last length &&& 0x0f).toNat = length := by
  decide

theorem low_field : ∀ (index : Fin maxSegments) (unused : Bool) (reserved : Fin 16),
    Cut.low index unused reserved >>> 4 = UInt8.ofNat (Cut.field2 index unused) := by
  decide

theorem read_fields (toggle first last : Bool) (index : Fin maxSegments) (unused : Bool) (reserved : Fin 16)
    {length : ℕ} (hpos : 1 ≤ length) (hlength : length ≤ 16) :
    Prefix.read (Cut.high toggle first last (length - 1)) (Cut.low index unused reserved) =
      ⟨toggle, first, last, .characters length (UInt8.ofNat (Cut.field2 index unused))⟩ := by
  obtain ⟨htoggle, hfirst, hlast, hcommand, hcount⟩ := high_bits toggle first last ⟨length - 1, by omega⟩
  have hlow := low_field index unused reserved
  rw [Prefix.read, if_pos hcommand, hcount, hlow, htoggle, hfirst, hlast, Nat.sub_add_cancel hpos]

theorem segmentIndex_field : ∀ (index : Fin maxSegments) (unused : Bool),
    segmentIndex (decide (index.val = 0)) (UInt8.ofNat (Cut.field2 index unused)) = .ok index := by
  decide

theorem text_bytes (text : List Char) : Mot.text (Text.bytes text) 15 = .ok (Mot.presentable text) := by
  have hdecoded : Mot.text (Text.bytes text) 15 =
      .ok (Mot.presentable (String.ofList text).toList) := by
    rw [Mot.text, Mot.fromUtf8_bytes]
    rfl
  rw [hdecoded, String.toList_ofList]

end Read

/-! ## The bytes of a group -/

namespace Sent

variable {cut : Cut} {toggle : Bool} (sent : Sent cut toggle)

theorem mem_parts : sent.part ∈ cut.parts := List.mem_of_getElem? sent.index_part

theorem index_lt : sent.index.val < cut.parts.length := (List.getElem?_eq_some_iff.mp sent.index_part).1

def header : Prefix :=
  ⟨toggle, decide (sent.index.val = 0), decide (sent.index.val + 1 = cut.parts.length),
    .characters sent.part.length (UInt8.ofNat (Cut.field2 sent.index sent.unused))⟩

theorem length_fields : sent.fields.length = prefixLength + sent.part.length := Nat.add_comm sent.part.length 2

theorem length_group : sent.group.length = prefixLength + sent.part.length + crcLength := by
  rw [group, List.length_append, length_fields, length_toBe16]
  rfl

/-- The bytes of a group that has come far enough to have its length. -/
theorem group_cons (rest : List UInt8) : ∃ high low behind, sent.group ++ rest = high :: low :: behind ∧
    Prefix.read high low = sent.header :=
  ⟨_, _, _, rfl, read_fields _ _ _ _ _ _ (cut.part_pos _ sent.mem_parts) (cut.part_le _ sent.mem_parts)⟩

variable {label : Label}

/-- A group whose length has come. -/
theorem collect_begun {rest behind : List UInt8} (hgroup : label.group ++ rest = sent.group ++ behind)
    (hlength : prefixLength ≤ label.group.length) :
    label.collect =
      if label.group.length < sent.group.length then (label, .ok none)
      else if Mot.crcOk (label.group.take sent.group.length) then
        { label with collecting := false, group := label.group.take sent.group.length }.segment sent.header
          (((label.group.take sent.group.length).drop prefixLength).take sent.part.length)
      else
        ({ label with collecting := false, group := label.group.take sent.group.length },
          .error "DAB dynamic-label CRC failure") := by
  obtain ⟨high, low, fields, hcons, hread⟩ := sent.group_cons behind
  have hdata : sent.header.dataLength = some sent.part.length := rfl
  rw [hcons] at hgroup
  obtain ⟨group, collecting, message, shown⟩ := label
  match group, hlength, hgroup with
  | first :: second :: taken, _, hgroup =>
    rw [List.cons_append, List.cons_append, List.cons.injEq, List.cons.injEq] at hgroup
    simp only [hgroup.1, hgroup.2.1, Label.collect, hread, hdata, sent.length_group]

/-- A group that is not whole yet. -/
theorem collect_short {rest : List UInt8} (hgroup : label.group ++ rest = sent.group ++ sent.padding)
    (hshort : label.group.length < sent.group.length) : label.collect = (label, .ok none) := by
  rcases Nat.lt_or_ge label.group.length prefixLength with hfew | hmany
  · obtain ⟨group, collecting, message, shown⟩ := label
    match group, hfew with
    | [], _ => rfl
    | [_], _ => rfl
  · rw [sent.collect_begun hgroup hmany, if_pos hshort]

theorem collect_whole {behind : List UInt8} (hgroup : label.group = sent.group ++ behind) :
    label.collect = { label with collecting := false, group := sent.group }.segment sent.header sent.part := by
  have hlong : sent.group.length ≤ label.group.length := by
    rw [hgroup, List.length_append]
    exact Nat.le_add_right ..
  have hlength : prefixLength ≤ label.group.length := by
    have hgroupLength := sent.length_group
    omega
  have htake : label.group.take sent.group.length = sent.group := by rw [hgroup, List.take_left]
  have hpart : (sent.group.drop prefixLength).take sent.part.length = sent.part := List.take_left
  have hcrc : Mot.crcOk sent.group = true := Mot.crcOk_append sent.fields
  rw [sent.collect_begun ((List.append_nil _).trans hgroup) hlength, if_neg (not_lt.mpr hlong), htake, if_pos hcrc,
    hpart]

end Sent

/-! ## The results of pushes -/

/-- The texts among some results. -/
def texts (results : List (Except String (Option String))) : List String :=
  results.filterMap fun result ↦ result.toOption.join

/-- Nothing was refused. -/
def Accepted (results : List (Except String (Option String))) : Prop := ∀ result ∈ results, ∃ text, result = .ok text

theorem texts_append (first second : List (Except String (Option String))) :
    texts (first ++ second) = texts first ++ texts second := List.filterMap_append

theorem texts_cons (text : Option String) (results : List (Except String (Option String))) :
    texts (.ok text :: results) = text.toList ++ texts results := by
  cases text <;> rfl

theorem accepted_append {first second : List (Except String (Option String))} (hfirst : Accepted first)
    (hsecond : Accepted second) : Accepted (first ++ second) := fun result hresult ↦
  (List.mem_append.mp hresult).elim (hfirst result) (hsecond result)

theorem accepted_cons {results : List (Except String (Option String))} (text : Option String)
    (hresults : Accepted results) : Accepted (.ok text :: results) := by
  intro result hresult
  rcases List.mem_cons.mp hresult with rfl | hlater
  · exact ⟨text, rfl⟩
  · exact hresults result hlater

namespace Label

theorem run_append (label : Label) (first second : List (Bool × List UInt8)) :
    label.run (first ++ second) =
      (((label.run first).1.run second).1, (label.run first).2 ++ ((label.run first).1.run second).2) :=
  Mealy.run_append ..

theorem run_cons (label : Label) (start : Bool) (bytes : List UInt8) (pushes : List (Bool × List UInt8)) :
    label.run ((start, bytes) :: pushes) = (((label.push start bytes).1.run pushes).1,
      (label.push start bytes).2 :: ((label.push start bytes).1.run pushes).2) := rfl

/-- Subfields that no group goes on in. -/
theorem run_idle {label : Label} (hidle : label.collecting = false) (subfields : List (List UInt8)) :
    (label.run (subfields.map fun subfield ↦ (false, subfield))).1 = label ∧
      texts (label.run (subfields.map fun subfield ↦ (false, subfield))).2 = [] ∧
      Accepted (label.run (subfields.map fun subfield ↦ (false, subfield))).2 := by
  induction subfields with
  | nil => exact ⟨rfl, rfl, fun result hresult ↦ absurd hresult List.not_mem_nil⟩
  | cons subfield subfields ih =>
    have hpush : label.push false subfield = (label, .ok none) := if_neg (by simp [hidle])
    rw [List.map_cons, run_cons, hpush, texts_cons]
    exact ⟨ih.1, ih.2.1, accepted_cons none ih.2.2⟩

end Label

namespace Sent

variable {cut : Cut} {toggle : Bool} (sent : Sent cut toggle) {next : Label} {shown : Option String}

/-- The subfields of a group that has begun: the segment is told with the subfield that makes the group whole. -/
theorem run_others {label : Label} (hcollecting : label.collecting = true)
    (hshort : label.group.length < sent.group.length) (subfields : List (List UInt8))
    (hwhole : label.group ++ subfields.flatten = sent.group ++ sent.padding)
    (hsegment : { label with collecting := false, group := sent.group }.segment sent.header sent.part =
      (next, .ok shown)) (hnext : next.collecting = false) :
    (label.run (subfields.map fun subfield ↦ (false, subfield))).1 = next ∧
      texts (label.run (subfields.map fun subfield ↦ (false, subfield))).2 = shown.toList ∧
      Accepted (label.run (subfields.map fun subfield ↦ (false, subfield))).2 := by
  induction subfields generalizing label with
  | nil =>
    have hlength := congrArg List.length hwhole
    rw [List.flatten_nil, List.append_nil, List.length_append] at hlength
    omega
  | cons subfield subfields ih =>
    have hpush : label.push false subfield = { label with group := label.group ++ subfield }.collect :=
      if_pos hcollecting
    rw [List.flatten_cons, ← List.append_assoc] at hwhole
    rw [List.map_cons, Label.run_cons, hpush]
    rcases Nat.lt_or_ge (label.group ++ subfield).length sent.group.length with hlater | hnow
    · rw [sent.collect_short hwhole hlater, texts_cons]
      obtain ⟨hlast, htexts, haccepted⟩ := @ih { label with group := label.group ++ subfield } hcollecting
        hlater hwhole hsegment
      exact ⟨hlast, htexts, accepted_cons none haccepted⟩
    · obtain ⟨behind, hbehind⟩ : ∃ behind, label.group ++ subfield = sent.group ++ behind := by
        obtain ⟨behind, hbehind⟩ := List.prefix_of_prefix_length_le (List.prefix_append sent.group sent.padding)
          (hwhole ▸ List.prefix_append _ _) hnow
        exact ⟨behind, hbehind.symm⟩
      rw [sent.collect_whole hbehind, hsegment, texts_cons]
      obtain ⟨hlast, htexts, haccepted⟩ := Label.run_idle hnext subfields
      rw [htexts, List.append_nil]
      exact ⟨hlast, rfl, accepted_cons shown haccepted⟩

/-- A group starts whatever came before. -/
theorem run_pushes {label : Label} (hwhole : sent.Whole)
    (hsegment : { label with collecting := false, group := sent.group }.segment sent.header sent.part =
      (next, .ok shown)) (hnext : next.collecting = false) :
    (label.run sent.pushes).1 = next ∧ texts (label.run sent.pushes).2 = shown.toList ∧
      Accepted (label.run sent.pushes).2 := by
  have hstart : label.run sent.pushes = { label with group := [], collecting := true }.run
      ((sent.first :: sent.others).map fun subfield ↦ (false, subfield)) := rfl
  have hpos : 0 < sent.group.length := by
    rw [sent.length_group]
    exact Nat.add_pos_right _ (by decide)
  rw [hstart]
  exact @run_others _ _ sent _ _ { label with group := [], collecting := true } rfl hpos (sent.first :: sent.others)
    hwhole hsegment hnext

end Sent

/-! ## The segments of a label -/

/-- The index of the last segment. -/
def Cut.lastIndex (cut : Cut) : Fin maxSegments :=
  ⟨cut.parts.length - 1, lt_of_lt_of_le
    (Nat.sub_lt (List.length_pos_of_ne_nil cut.parts_ne) one_pos) cut.parts_le⟩

/-- All segments of a label are among some. -/
def Cut.Complete (cut : Cut) (indices : List (Fin maxSegments)) : Prop :=
  ∀ index : Fin maxSegments, index < cut.parts.length → index ∈ indices

instance (cut : Cut) (indices : List (Fin maxSegments)) : Decidable (cut.Complete indices) :=
  inferInstanceAs (Decidable (∀ index : Fin maxSegments, index.val < cut.parts.length → index ∈ indices))

/-- The message holds what came with some indices of a label. -/
structure Holds (cut : Cut) (toggle : Bool) (indices : List (Fin maxSegments)) (message : Message) : Prop where
  toggle : message.toggle = some toggle
  charset : ∀ index ∈ indices, index.val = 0 → message.charset = 15
  segments : message.segments = fun index ↦ if index ∈ indices then cut.parts[index.val]? else none
  last : message.last = if cut.lastIndex ∈ indices then some cut.lastIndex else none

theorem holds_fresh (cut : Cut) (toggle : Bool) : Holds cut toggle [] { toggle := some toggle } where
  toggle := rfl
  charset := fun _ hindex ↦ absurd hindex List.not_mem_nil
  segments := rfl
  last := rfl

section Segments

variable {cut : Cut} {toggle : Bool} {indices : List (Fin maxSegments)} {message : Message}

theorem Holds.complete (hholds : Holds cut toggle indices message) :
    message.complete = if cut.Complete indices then some (Text.bytes cut.text) else none := by
  have hpos := List.length_pos_of_ne_nil cut.parts_ne
  have hlength : (cut.lastIndex : ℕ) + 1 = cut.parts.length := Nat.sub_add_cancel hpos
  have hat (index : ℕ) (hindex : index < cut.parts.length) :
      ((List.finRange maxSegments).take cut.parts.length)[index]? = some ⟨index, hindex.trans_le cut.parts_le⟩ := by
    rw [List.getElem?_take_of_lt hindex, List.getElem?_eq_getElem (by
      rw [List.length_finRange]
      exact hindex.trans_le cut.parts_le), List.getElem_finRange]
    rfl
  rw [Message.complete, hholds.last]
  split_ifs with hlast hcomplete hcomplete
  · have hparts : ((List.finRange maxSegments).take cut.parts.length).mapM message.segments = some cut.parts := by
      rw [Mot.Entity.mapM_eq_some]
      apply List.ext_getElem?
      intro index
      rw [List.getElem?_map, List.getElem?_map]
      rcases Nat.lt_or_ge index cut.parts.length with hindex | hindex
      · rw [hat index hindex, List.getElem?_eq_getElem hindex, Option.map_some, Option.map_some, hholds.segments]
        exact congrArg some ((if_pos (hcomplete ⟨index, hindex.trans_le cut.parts_le⟩ hindex)).trans
          (List.getElem?_eq_getElem hindex))
      · rw [List.getElem?_eq_none hindex, List.getElem?_eq_none (by
          rw [List.length_take]
          omega)]
        rfl
    rw [Option.bind_eq_bind, Option.bind_some, hlength, hparts, Option.bind_eq_bind, Option.bind_some, cut.joined]
    rfl
  · have hnone : ((List.finRange maxSegments).take cut.parts.length).mapM message.segments = none := by
      rw [Option.eq_none_iff_forall_ne_some]
      intro parts hparts
      apply hcomplete
      intro index hindex
      by_contra hmissing
      have hmap := congrArg (·[index.val]?) ((Mot.Entity.mapM_eq_some ..).mp hparts)
      simp only [List.getElem?_map, hat index hindex, Option.map_some, hholds.segments] at hmap
      rw [if_neg hmissing] at hmap
      cases hpart : parts[index.val]? with
      | none =>
        rw [hpart] at hmap
        cases hmap
      | some part =>
        rw [hpart] at hmap
        cases hmap
    rw [Option.bind_eq_bind, Option.bind_some, hlength, hnone]
    rfl
  · exact absurd (hcomplete cut.lastIndex (by omega)) hlast
  · rfl

theorem Holds.conflicts (hholds : Holds cut toggle indices message) (sent : Sent cut toggle) :
    message.conflicts sent.index sent.part = false := by
  rw [Message.conflicts, hholds.segments]
  change Option.any _ (if _ then _ else _) = _
  split_ifs
  · rw [sent.index_part]
    exact Bool.eq_false_iff.mpr (fun h ↦ by simp at h)
  · rfl

theorem Holds.accept (hholds : Holds cut toggle indices message) (sent : Sent cut toggle) :
    Holds cut toggle (sent.index :: indices) (message.accept sent.header
      (UInt8.ofNat (Cut.field2 sent.index sent.unused)) sent.index sent.part) where
  toggle := hholds.toggle
  charset := by
    intro index hindex hzero
    change (if decide (sent.index.val = 0) = true then UInt8.ofNat _ else message.charset) = 15
    rcases Nat.eq_zero_or_pos sent.index.val with hfirst | hlater
    · rw [if_pos (decide_eq_true hfirst), Cut.field2, if_pos hfirst]
      rfl
    · have hbefore : index ∈ indices := (List.mem_cons.mp hindex).resolve_left fun heq ↦ by
        rw [heq] at hzero
        omega
      rw [if_neg (by simpa using hlater.ne'), hholds.charset index hbefore hzero]
  segments := by
    funext index
    change Function.update message.segments sent.index (some sent.part) index = _
    rw [hholds.segments]
    rcases eq_or_ne index sent.index with rfl | hne
    · rw [Function.update_self, if_pos List.mem_cons_self, sent.index_part]
    · rw [Function.update_of_ne hne]
      exact if_congr (by rw [List.mem_cons, or_iff_right hne]) rfl rfl
  last := by
    change (if decide (sent.index.val + 1 = cut.parts.length) = true then some sent.index else message.last) = _
    have hparts := List.length_pos_of_ne_nil cut.parts_ne
    rcases eq_or_ne cut.lastIndex sent.index with heq | hne
    · have hend : sent.index.val + 1 = cut.parts.length := by
        rw [← heq]
        exact Nat.sub_add_cancel hparts
      rw [if_pos (decide_eq_true hend), heq, if_pos List.mem_cons_self]
    · have hinner : sent.index.val + 1 ≠ cut.parts.length := fun hend ↦ hne (Fin.ext (by
        rw [Cut.lastIndex]
        change cut.parts.length - 1 = sent.index.val
        omega))
      rw [if_neg (by simpa using hinner), hholds.last]
      exact if_congr (by rw [List.mem_cons, or_iff_right hne]) rfl rfl

/-- A segment of the label: the message comes to hold it, and is whole with the last one that was missing. -/
theorem insert_sent (sent : Sent cut toggle)
    (hbefore : Holds cut toggle indices message ∨ message.toggle ≠ some toggle ∧ indices = []) :
    Holds cut toggle (sent.index :: indices)
        (message.insert sent.header (UInt8.ofNat (Cut.field2 sent.index sent.unused)) sent.part).1 ∧
      (message.insert sent.header (UInt8.ofNat (Cut.field2 sent.index sent.unused)) sent.part).2 =
        .ok (if cut.Complete (sent.index :: indices) then some (Text.bytes cut.text, 15) else none) := by
  have hindex : segmentIndex sent.header.first (UInt8.ofNat (Cut.field2 sent.index sent.unused)) = .ok sent.index :=
    segmentIndex_field sent.index sent.unused
  obtain ⟨base, hbase, hholds⟩ : ∃ base, (if message.toggle ≠ some sent.header.toggle ∨
      message.conflicts sent.index sent.part then { toggle := some sent.header.toggle } else message) = base ∧
      Holds cut toggle indices base := by
    rcases hbefore with hholds | ⟨hother, rfl⟩
    · refine ⟨message, if_neg ?_, hholds⟩
      rw [hholds.conflicts sent, hholds.toggle]
      exact fun hreset ↦ hreset.elim (fun hne ↦ hne rfl) Bool.false_ne_true
    · exact ⟨_, if_pos (Or.inl hother), holds_fresh cut toggle⟩
  have haccept := hholds.accept sent
  rw [Message.insert, hindex]
  simp only [hbase]
  refine ⟨haccept, ?_⟩
  rw [haccept.complete]
  split_ifs with hcomplete
  · have hzero : (⟨0, by decide⟩ : Fin maxSegments) ∈ sent.index :: indices :=
      hcomplete _ (List.length_pos_of_ne_nil cut.parts_ne)
    rw [Option.map_some, haccept.charset _ hzero rfl]
  · rfl

end Segments

/-! ## A label -/

/-- What is told of a text to one who is shown another, or nothing yet. -/
def told (shown : Option String) (text : String) : List String := if shown = some text then [] else [text]

/-- A receiver with some segments of a label, shown something before it. -/
structure Receiving (cut : Cut) (toggle : Bool) (before : Option String) (indices : List (Fin maxSegments))
    (label : Label) : Prop where
  idle : label.collecting = false
  message : Holds cut toggle indices label.message ∨ label.message.toggle ≠ some toggle ∧ indices = []
  shown : label.shown = if cut.Complete indices then some (Mot.presentable cut.text) else before

section Receive

variable {cut : Cut} {toggle : Bool} {before : Option String} {indices : List (Fin maxSegments)} {label : Label}

theorem segment_none {header : Prefix} {length : ℕ} {field2 : UInt8} {data : List UInt8} {message : Message}
    (hcontrol : header.control = .characters length field2)
    (hinsert : label.message.insert header field2 data = (message, .ok none)) :
    label.segment header data = ({ label with message }, .ok none) := by
  rw [Label.segment, hcontrol]
  simp only [hinsert]

theorem segment_some {header : Prefix} {length : ℕ} {field2 charset : UInt8} {data bytes : List UInt8}
    {message : Message} {text : String} (hcontrol : header.control = .characters length field2)
    (hinsert : label.message.insert header field2 data = (message, .ok (some (bytes, charset))))
    (htext : Mot.text bytes charset = .ok text) :
    label.segment header data = (({ label with message }.displayed text).1,
      .ok ({ label with message }.displayed text).2) := by
  rw [Label.segment, hcontrol]
  simp only [hinsert, htext]

theorem displayed_spec (label : Label) (text : String) :
    (label.displayed text).1 = { label with shown := some text } ∧
      (label.displayed text).2.toList = told label.shown text := by
  rw [Label.displayed, told]
  split_ifs with hsame
  · exact ⟨by rw [← hsame], rfl⟩
  · exact ⟨rfl, rfl⟩

theorem Receiving.segment (hreceiving : Receiving cut toggle before indices label) (sent : Sent cut toggle) :
    ∃ next shown, { label with collecting := false, group := sent.group }.segment sent.header sent.part =
        (next, .ok shown) ∧
      Receiving cut toggle before (sent.index :: indices) next ∧
      shown.toList = if cut.Complete (sent.index :: indices) ∧ ¬cut.Complete indices then
        told before (Mot.presentable cut.text) else [] := by
  obtain ⟨hholds, hinserted⟩ := insert_sent sent hreceiving.message
  have hgrown (hcomplete : cut.Complete indices) : cut.Complete (sent.index :: indices) :=
    fun index hindex ↦ List.mem_cons_of_mem _ (hcomplete index hindex)
  rcases hinsert : label.message.insert sent.header (UInt8.ofNat (Cut.field2 sent.index sent.unused)) sent.part with
    ⟨message, result⟩
  rw [hinsert] at hholds hinserted
  obtain rfl : result = _ := hinserted
  rcases Decidable.em (cut.Complete (sent.index :: indices)) with hnow | hlater
  · rw [if_pos hnow] at hinsert
    obtain ⟨hlabel, hshown⟩ := displayed_spec
      { label with collecting := false, group := sent.group, message } (Mot.presentable cut.text)
    refine ⟨_, _, segment_some rfl hinsert (text_bytes cut.text), ?_, ?_⟩
    · rw [hlabel]
      exact ⟨rfl, Or.inl hholds, (if_pos hnow).symm⟩
    · rw [hshown, hreceiving.shown]
      rcases Decidable.em (cut.Complete indices) with hbefore | hbefore
      · rw [if_pos hbefore, if_neg (fun h ↦ h.2 hbefore), told, if_pos rfl]
      · rw [if_neg hbefore, if_pos ⟨hnow, hbefore⟩]
  · rw [if_neg hlater] at hinsert
    refine ⟨_, _, segment_none rfl hinsert, ⟨rfl, Or.inl hholds, ?_⟩, ?_⟩
    · rw [if_neg hlater]
      exact hreceiving.shown.trans (if_neg fun hcomplete ↦ hlater (hgrown hcomplete))
    · rw [if_neg fun h ↦ hlater h.1]
      rfl

/-- Segments of a label in any order: its text is told with the one that completes it. -/
theorem Receiving.run (hreceiving : Receiving cut toggle before indices label) (segments : List (Sent cut toggle))
    (hwhole : ∀ segment ∈ segments, segment.Whole) :
    ∃ after, Receiving cut toggle before (after ++ indices) (label.run (segments.flatMap Sent.pushes)).1 ∧
      (∀ index, index ∈ after ↔ ∃ segment ∈ segments, segment.index = index) ∧
      texts (label.run (segments.flatMap Sent.pushes)).2 =
        (if cut.Complete (after ++ indices) ∧ ¬cut.Complete indices then
          told before (Mot.presentable cut.text) else []) ∧
      Accepted (label.run (segments.flatMap Sent.pushes)).2 := by
  induction segments generalizing label indices with
  | nil =>
    refine ⟨[], hreceiving, fun index ↦ ?_, (if_neg fun h ↦ h.2 h.1).symm,
      fun result hresult ↦ absurd hresult List.not_mem_nil⟩
    exact ⟨fun h ↦ absurd h List.not_mem_nil, fun ⟨_, h, _⟩ ↦ absurd h List.not_mem_nil⟩
  | cons sent segments ih =>
    obtain ⟨next, shown, hsegment, hnext, hshown⟩ := hreceiving.segment sent
    obtain ⟨hlabel, htexts, haccepted⟩ := sent.run_pushes (hwhole sent List.mem_cons_self) hsegment hnext.idle
    obtain ⟨after, hafter, hmem, hrest, hrestAccepted⟩ := ih hnext fun segment hlater ↦
      hwhole segment (List.mem_cons_of_mem sent hlater)
    rw [List.flatMap_cons, Label.run_append, hlabel]
    refine ⟨after ++ [sent.index], ?_, fun index ↦ ?_, ?_, accepted_append haccepted hrestAccepted⟩
    · rw [List.append_assoc]
      exact hafter
    · rw [List.mem_append, hmem, List.mem_singleton, List.exists_mem_cons_iff, or_comm, eq_comm]
    · rw [texts_append, htexts, hshown, hrest, List.append_assoc, List.singleton_append]
      have hgrown : cut.Complete indices → cut.Complete (sent.index :: indices) :=
        fun hcomplete index hindex ↦ List.mem_cons_of_mem _ (hcomplete index hindex)
      have hlater : cut.Complete (sent.index :: indices) → cut.Complete (after ++ sent.index :: indices) :=
        fun hcomplete index hindex ↦ List.mem_append_right _ (hcomplete index hindex)
      split_ifs <;> first | rfl | exact List.append_nil _ | tauto

/-- A label that is sent whole: its text is told once, or not at all if it is shown already. -/
theorem run_aired (aired : Aired) {label : Label} (hidle : label.collecting = false)
    (hother : label.message.toggle ≠ some aired.toggle) :
    (label.run aired.pushes).1.collecting = false ∧
      (label.run aired.pushes).1.message.toggle = some aired.toggle ∧
      (label.run aired.pushes).1.shown = some aired.presented ∧
      texts (label.run aired.pushes).2 = told label.shown aired.presented ∧
      Accepted (label.run aired.pushes).2 := by
  have hnone : ¬aired.cut.Complete [] := fun hcomplete ↦
    absurd (hcomplete ⟨0, by decide⟩ (List.length_pos_of_ne_nil aired.cut.parts_ne)) List.not_mem_nil
  have hstart : Receiving aired.cut aired.toggle label.shown [] label :=
    ⟨hidle, Or.inr ⟨hother, rfl⟩, (if_neg hnone).symm⟩
  obtain ⟨after, hafter, hmem, htexts, haccepted⟩ := hstart.run aired.sent aired.whole
  have hcomplete : aired.cut.Complete (after ++ []) := by
    intro index hindex
    exact List.mem_append_left _ ((hmem index).mpr (aired.all index hindex))
  rw [if_pos ⟨hcomplete, hnone⟩] at htexts
  have hshown := hafter.shown
  rw [if_pos hcomplete] at hshown
  refine ⟨hafter.idle, ?_, hshown, htexts, haccepted⟩
  rcases hafter.message with hholds | ⟨-, hempty⟩
  · exact hholds.toggle
  · rw [hempty] at hcomplete
    exact absurd hcomplete hnone

end Receive

/-! ## One label after another -/

/-- Texts with those left out that are the same as the one before. -/
def merged : Option String → List String → List String
  | _, [] => []
  | shown, text :: rest => told shown text ++ merged (some text) rest

theorem destutter'_eq_merged (text : String) (rest : List String) :
    rest.destutter' (· ≠ ·) text = text :: merged (some text) rest := by
  induction rest generalizing text with
  | nil => rfl
  | cons next rest ih =>
    rw [List.destutter'_cons, merged, told]
    rcases eq_or_ne text next with rfl | hne
    · rw [if_neg (not_not.mpr rfl), if_pos rfl, ih]
      rfl
    · rw [if_pos hne, if_neg (fun h ↦ hne (Option.some_inj.mp h)), ih]
      rfl

theorem destutter_eq_merged (list : List String) : list.destutter (· ≠ ·) = merged none list := by
  cases list with
  | nil => rfl
  | cons text rest => exact destutter'_eq_merged text rest

theorem run_labels (labels : List Aired) (hopposite : labels.IsChain fun one next ↦ next.toggle = !one.toggle)
    {label : Label} (hidle : label.collecting = false)
    (hother : ∀ first ∈ labels.head?, label.message.toggle ≠ some first.toggle) :
    texts (label.run (labels.flatMap Aired.pushes)).2 = merged label.shown (labels.map Aired.presented) ∧
      Accepted (label.run (labels.flatMap Aired.pushes)).2 := by
  induction labels generalizing label with
  | nil => exact ⟨rfl, fun result hresult ↦ absurd hresult List.not_mem_nil⟩
  | cons aired labels ih =>
    obtain ⟨hnext, htoggle, hshown, htexts, haccepted⟩ := run_aired aired hidle (hother aired rfl)
    obtain ⟨hrest, hrestAccepted⟩ := ih hopposite.tail hnext fun first hfirst ↦ by
      have hflip : first.toggle = !aired.toggle := by
        cases labels with
        | nil => exact absurd hfirst (by simp)
        | cons second labels =>
          rw [List.head?_cons, Option.mem_some_iff] at hfirst
          rw [← hfirst]
          exact (List.isChain_cons_cons.mp hopposite).1
      rw [htoggle, hflip]
      cases aired.toggle <;> decide
    rw [List.flatMap_cons, Label.run_append, texts_append, htexts, hrest, hshown]
    exact ⟨rfl, accepted_append haccepted hrestAccepted⟩

/-- However labels are sent, every push is accepted and each label is told once, in order, but for one with the text
of the label before. -/
theorem labels_told (labels : List Aired) (hopposite : labels.IsChain fun one next ↦ next.toggle = !one.toggle) :
    Accepted (Label.run {} (labels.flatMap Aired.pushes)).2 ∧
      texts (Label.run {} (labels.flatMap Aired.pushes)).2 =
        (labels.map Aired.presented).destutter (· ≠ ·) := by
  obtain ⟨htexts, haccepted⟩ := @run_labels labels hopposite {} rfl fun first _ ↦ nofun
  rw [htexts, destutter_eq_merged]
  exact ⟨haccepted, rfl⟩

/-! ## Two labels -/

/-- A segment in one subfield with nothing behind it. -/
def Sent.plain (cut : Cut) (toggle : Bool) (index : Fin maxSegments) (part : List UInt8)
    (hpart : cut.parts[index.val]? = some part) : Sent cut toggle where
  index := index
  part := part
  index_part := hpart
  unused := false
  reserved := 0
  padding := []
  first := cut.fields toggle index part false 0 ++
    toBe16 (~~~Dsp.crc16Msb 0x1021 0xffff (cut.fields toggle index part false 0)).toNat
  others := []

/-- Two letters in a segment each. -/
def twoLetters (first second : Char) (hfirst : String.utf8EncodeChar first = [first.val.toUInt8])
    (hsecond : String.utf8EncodeChar second = [second.val.toUInt8]) : Cut where
  text := [first, second]
  parts := [[first.val.toUInt8], [second.val.toUInt8]]
  parts_ne := List.cons_ne_nil _ _
  parts_le := Nat.le_of_ble_eq_true rfl
  part_pos := by
    intro part hpart
    rcases List.mem_pair.mp hpart with rfl | rfl <;> exact le_rfl
  part_le := by
    intro part hpart
    rcases List.mem_pair.mp hpart with rfl | rfl <;> exact Nat.le_of_ble_eq_true rfl
  joined := by
    rw [Text.bytes, List.flatMap_cons, List.flatMap_cons, hfirst, hsecond]
    rfl

theorem maxSegments_pos : 0 < maxSegments := by decide

/-- Sent with the second segment first, and then again. -/
def airedBackwards (cut : Cut) (toggle : Bool) (first second : List UInt8) (hparts : cut.parts = [first, second]) :
    Aired where
  cut := cut
  toggle := toggle
  sent := [.plain cut toggle ⟨1, by decide⟩ second (by rw [hparts]; rfl),
    .plain cut toggle ⟨0, maxSegments_pos⟩ first (by rw [hparts]; rfl),
    .plain cut toggle ⟨1, by decide⟩ second (by rw [hparts]; rfl)]
  whole := by
    intro segment hsegment
    simp only [List.mem_cons, List.not_mem_nil, or_false] at hsegment
    rcases hsegment with rfl | rfl | rfl <;> rfl
  all := by
    intro index hindex
    rw [hparts] at hindex
    match index, hindex with
    | ⟨0, _⟩, _ => exact ⟨_, List.mem_cons_of_mem _ List.mem_cons_self, rfl⟩
    | ⟨1, _⟩, _ => exact ⟨_, List.mem_cons_self, rfl⟩

def greetings : List Aired :=
  [airedBackwards (twoLetters 'H' 'i' rfl rfl) false _ _ rfl,
    airedBackwards (twoLetters 'H' 'o' rfl rfl) true _ _ rfl]

theorem greetings_told :
    Accepted (Label.run {} (greetings.flatMap Aired.pushes)).2 ∧
      texts (Label.run {} (greetings.flatMap Aired.pushes)).2 =
        (greetings.map Aired.presented).destutter (· ≠ ·) :=
  labels_told greetings (List.isChain_pair.mpr rfl)

end Sdrmm.DabLabel
