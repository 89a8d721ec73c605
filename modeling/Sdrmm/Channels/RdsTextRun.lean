import Mathlib.Data.List.Chain
import Mathlib.Data.List.GetD
import Sdrmm.Channels.RdsText

/-!
# Radio text from group to group

What a station publishes of messages that are sent one after the other.  Two messages are blended when a pair closes
the last gap of characters that were held before it and are no message with it.
-/

namespace Sdrmm.Rds

open View

/-! ## Pairs and headers -/

theorem pair_toNat (hi lo : UInt8) : (hi.toUInt16 <<< 8 ||| lo.toUInt16).toNat = 256 * hi.toNat + lo.toNat := by
  have hhi := hi.toNat_lt
  have hshift : (hi.toUInt16 <<< 8).toNat = hi.toNat <<< 8 := by
    rw [UInt16.toNat_shiftLeft, Nat.shiftLeft_eq, Nat.shiftLeft_eq, UInt8.toNat_toUInt16]
    change hi.toNat * 256 % 65536 = hi.toNat * 256
    omega
  rw [UInt16.toNat_or, hshift, UInt8.toNat_toUInt16, ← Nat.shiftLeft_add_eq_or_of_lt lo.toNat_lt, Nat.shiftLeft_eq,
    Nat.mul_comm]

theorem pair_high (hi lo : UInt8) : ((hi.toUInt16 <<< 8 ||| lo.toUInt16) >>> 8).toUInt8 = hi := by
  have hhi := hi.toNat_lt
  have hlo := lo.toNat_lt
  apply UInt8.toNat_inj.mp
  rw [UInt16.toNat_toUInt8, UInt16.toNat_shiftRight, pair_toNat, Nat.shiftRight_eq_div_pow]
  change (256 * hi.toNat + lo.toNat) / 256 % 256 = hi.toNat
  omega

theorem pair_low (hi lo : UInt8) : (hi.toUInt16 <<< 8 ||| lo.toUInt16).toUInt8 = lo := by
  have hlo := lo.toNat_lt
  apply UInt8.toNat_inj.mp
  rw [UInt16.toNat_toUInt8, pair_toNat]
  omega

/-- What the receiver reads of the second block. -/
theorem header_spec (cast : Cast) {segment : ℕ} (hsegment : segment < 16) :
    cast.header segment >>> 12 = 2 ∧ cast.header segment &&& 0x0800 = 0 ∧
      (cast.header segment &&& 0x0010 != 0) = cast.flag ∧ (cast.header segment &&& 0x000F).toNat = segment := by
  have hall : ∀ tp flag : Bool, ∀ pty < 32, ∀ segment < 16,
      let header := (2 : UInt16) <<< 12 ||| (tp.toUInt16 <<< 10 ||| (UInt8.ofNat pty).toUInt16 <<< 5) |||
        flag.toUInt16 <<< 4 ||| UInt16.ofNat segment
      header >>> 12 = 2 ∧ header &&& 0x0800 = 0 ∧ (header &&& 0x0010 != 0) = flag ∧
        (header &&& 0x000F).toNat = segment := by
    decide
  have hpty : (cast.pty &&& 0x1F).toNat < 32 := by
    rw [UInt8.toNat_and]
    exact Nat.lt_succ_of_le Nat.and_le_right
  have hheader := hall cast.tp cast.flag _ hpty segment hsegment
  rwa [UInt8.ofNat_toNat] at hheader

/-! ## What is sent of a message -/

namespace Cast

variable {message : List UInt8}

theorem length_rtBytes (hshort : message.length ≤ rtLen) :
    4 ∣ (rtBytes message).length ∧ (rtBytes message).length ≤ rtLen := by
  have hrt : rtLen = 64 := rfl
  unfold rtBytes
  split
  · simp only [List.length_append, List.length_replicate, List.length_singleton]
    omega
  · simp only [List.length_append, List.length_replicate]
    omega

theorem segments_le (cast : Cast) : cast.segments ≤ 16 := by
  have hlength := (length_rtBytes cast.short).2
  unfold segments
  unfold rtLen at hlength
  omega

theorem getElem?_rtBytes {place : ℕ} (hplace : place < message.length) :
    (rtBytes message)[place]? = message[place]? := by
  unfold rtBytes
  dsimp only
  split
  · rw [List.append_assoc, List.getElem?_append_left hplace]
  · rw [List.getElem?_append_left hplace]

theorem rtBytes_terminator (hshort : message.length < rtLen) :
    (rtBytes message)[message.length]? = some rtTerminator := by
  unfold rtBytes
  dsimp only
  rw [if_pos hshort, List.append_assoc, List.getElem?_append_right le_rfl, Nat.sub_self]
  rfl

/-- What is sent of a message reads as the message. -/
theorem reads_rtBytes (cast : Cast) : Reads (fun place ↦ (rtBytes cast.message)[place]?) cast.message where
  short := cast.short
  plain := cast.plain
  chars := fun _ hplace ↦ getElem?_rtBytes hplace
  ended := rtBytes_terminator

theorem pairAt_spec {bytes : List UInt8} {index : ℕ} (hindex : index + 1 < bytes.length) :
    bytes[index]? = some (pairAt bytes index >>> 8).toUInt8 ∧
      bytes[index + 1]? = some (pairAt bytes index).toUInt8 := by
  rw [pairAt, pair_high, pair_low, List.getElem?_eq_getElem (Nat.lt_of_succ_lt hindex),
    List.getElem?_eq_getElem hindex, List.getD_eq_getElem _ _ (Nat.lt_of_succ_lt hindex),
    List.getD_eq_getElem _ _ hindex]
  exact ⟨rfl, rfl⟩

/-- A pair of a message that reads as a text on its own is the message. -/
theorem reads_pair (cast : Cast) {view : View} {content : List UInt8} {place : ℕ} {hi lo : UInt8}
    (hhi : (rtBytes cast.message)[place]? = some hi) (hlo : (rtBytes cast.message)[place + 1]? = some lo)
    (hreads : Reads (overlay (overlay view place hi) (place + 1) lo) content)
    (hcontradicts : ¬Agrees view place hi lo) : content = cast.message := by
  have hplain : place = 0 → hi ≠ rtTerminator := by
    intro hzero hterminator
    subst hzero
    subst hterminator
    exact cast.reads_rtBytes.plain_at (List.length_pos_of_ne_nil cast.nonempty) hhi
  obtain ⟨hzero, hcontent, hterminator⟩ := hreads.alone hcontradicts hplain
  subst hzero
  subst hterminator
  have hpair : Reads (fun place ↦ (rtBytes cast.message)[place]?) content := by
    rw [hcontent]
    refine ⟨show 1 ≤ rtLen by decide, fun hmem ↦ hplain rfl (List.mem_singleton.mp hmem).symm, ?_, fun _ ↦ hlo⟩
    intro place hplace
    have hzero : place = 0 := Nat.lt_one_iff.mp hplace
    rw [hzero]
    exact hhi
  exact hpair.unique cast.reads_rtBytes

end Cast

/-! ## The field from pair to pair -/

theorem publish_snd (slot value : Option (List Char)) : (publish slot value).2 = value.or slot := by
  unfold publish
  cases value with
  | none => rfl
  | some text =>
    dsimp only
    split
    · rfl
    · rename_i hsame
      exact not_not.mp hsame

namespace TextField

variable {messages : List (List UInt8)} {field : TextField}

/-- The pair does not close the last gap of characters that are no message with it. -/
def ClosesWithin (messages : List (List UInt8)) (field : TextField) (place : ℕ) (chars : UInt16) : Prop :=
  View.ClosesWithin messages field.held place (chars >>> 8).toUInt8 chars.toUInt8

/-- Whatever the field shows, and whatever it reads as, is one of the messages. -/
structure Shows (messages : List (List UInt8)) (field : TextField) : Prop where
  rt : IsRt field
  within : Within messages field.held
  shown : ∀ shown, field.text = some shown → ∃ message ∈ messages, shown = Rds.text message

theorem within_none (messages : List (List UInt8)) : Within messages fun _ ↦ none := by
  intro content hreads
  by_cases hshort : content.length < rtLen
  · exact nomatch hreads.ended hshort
  · have hpos : 0 < content.length := lt_of_lt_of_le (by decide) (Nat.not_lt.mp hshort)
    have hfirst := hreads.chars 0 hpos
    rw [List.getElem?_eq_getElem hpos] at hfirst
    exact nomatch hfirst

theorem shows_new (messages : List (List UInt8)) : Shows messages (.new rtLen true) :=
  ⟨isRt_new, held_new rtLen true ▸ within_none messages, nofun⟩

theorem Shows.clear (hshows : Shows messages field) : Shows messages field.clear :=
  ⟨hshows.rt.clear, held_clear field ▸ within_none messages, hshows.shown⟩

theorem text_writeByte (field : TextField) (place : ℕ) (byte : UInt8) (trusted : Bool) :
    (field.writeByte place byte trusted).text = field.text := by
  unfold writeByte
  dsimp only
  split_ifs
  all_goals rfl

theorem text_writePair (field : TextField) (index : ℕ) (chars : UInt16) (trusted : Bool) :
    (field.writePair index chars trusted).text = field.text := by
  rw [writePair, text_writeByte, text_writeByte]

theorem held_write {place : ℕ} (hrt : IsRt field) (hplace : place + 1 < rtLen) (chars : UInt16) :
    (field.write place chars true).2.held =
        overlay (overlay field.held place (chars >>> 8).toUInt8) (place + 1) chars.toUInt8 ∧
      IsRt (field.write place chars true).2 := by
  obtain ⟨hheld, hpair⟩ := writePair_trusted hrt hplace chars
  exact ⟨hheld, ⟨hpair.chars, hpair.len, hpair.terminated⟩⟩

theorem Shows.write (hshows : Shows messages field) {cast : Cast} (hcast : cast.message ∈ messages) {place : ℕ}
    (hplace : place + 1 < (Cast.rtBytes cast.message).length)
    (hcloses : field.ClosesWithin messages place (Cast.pairAt (Cast.rtBytes cast.message) place)) :
    Shows messages (field.write place (Cast.pairAt (Cast.rtBytes cast.message) place) true).2 := by
  obtain ⟨hhi, hlo⟩ := Cast.pairAt_spec hplace
  have hroom := lt_of_lt_of_le hplace (Cast.length_rtBytes cast.short).2
  obtain ⟨hheld, hrt⟩ := held_write hshows.rt hroom (Cast.pairAt (Cast.rtBytes cast.message) place)
  obtain ⟨hpairHeld, hpairRt⟩ :=
    writePair_trusted hshows.rt hroom (Cast.pairAt (Cast.rtBytes cast.message) place)
  have hwithin : Within messages (field.write place (Cast.pairAt (Cast.rtBytes cast.message) place) true).2.held := by
    rw [hheld]
    apply hshows.within.overlay hcloses
    intro content hreads hcontradicts
    rw [cast.reads_pair hhi hlo hreads hcontradicts]
    exact hcast
  refine ⟨hrt, hwithin, ?_⟩
  intro shown hshown
  change (publish _ _).2 = some shown at hshown
  rw [publish_snd, text_writePair, Option.or_eq_some_iff] at hshown
  rcases hshown with hcomplete | ⟨-, hbefore⟩
  · obtain ⟨content, hreads, hcontent⟩ := (complete_eq_some hpairRt).mp hcomplete
    refine ⟨content, hwithin content ?_, hcontent⟩
    rw [hheld, ← hpairHeld]
    exact hreads
  · exact hshows.shown shown hbefore

end TextField

/-! ## The station from group to group -/

namespace Station

/-- The field a group of radio text is written to. -/
def fieldOf (station : Station) (header : Block) : TextField := (station.applyFlag header.data header.trusted).rt

/-- Neither pair of a group closes the last gap of characters that are no message with it. -/
def Unmixed (messages : List (List UInt8)) (station : Station) (group : Group) : Prop :=
  ∀ b c d, group[1]? = some (some b) → group[2]? = some (some c) → group[3]? = some (some d) →
    let place := 4 * (b.data &&& 0x000F).toNat
    (station.fieldOf b).ClosesWithin messages place c.data ∧
      ((station.fieldOf b).write place c.data true).2.ClosesWithin messages (place + 2) d.data

theorem applyPi_rt (station : Station) (block : Option Block) :
    (station.applyPi block).2.rt = station.rt ∧ (station.applyPi block).2.rtFlag = station.rtFlag := by
  unfold applyPi
  split
  · split
    · exact ⟨rfl, rfl⟩
    · exact ⟨rfl, rfl⟩
  · exact ⟨rfl, rfl⟩

theorem applyProgram_rt (station : Station) (header : UInt16) (trusted : Bool) :
    (station.applyProgram header trusted).2.rt = station.rt ∧
      (station.applyProgram header trusted).2.rtFlag = station.rtFlag := by
  unfold applyProgram
  split
  · exact ⟨rfl, rfl⟩
  · exact ⟨rfl, rfl⟩

theorem applyFlag_congr {first second : Station} (hrt : first.rt = second.rt) (hflag : first.rtFlag = second.rtFlag)
    (header : UInt16) (trusted : Bool) :
    (first.applyFlag header trusted).rt = (second.applyFlag header trusted).rt := by
  unfold applyFlag
  split
  · dsimp only
    rw [hrt, hflag]
  · exact hrt

/-- A group of a message, as it is sent. -/
theorem apply_group (station : Station) (cast : Cast) {segment : ℕ} (hsegment : segment < 16) :
    (station.apply (cast.group segment)).2.rt =
        (((station.fieldOf ⟨cast.header segment, true⟩).write (4 * segment)
            (Cast.pairAt (Cast.rtBytes cast.message) (4 * segment)) true).2.write (4 * segment + 2)
          (Cast.pairAt (Cast.rtBytes cast.message) (4 * segment + 2)) true).2 ∧
      (station.apply (cast.group segment)).2.rtFlag = some cast.flag := by
  obtain ⟨hkind, hversion, hflag, hplace⟩ := header_spec cast hsegment
  obtain ⟨hpi, hpiFlag⟩ := applyPi_rt station (cast.group segment)[0]
  obtain ⟨hprogram, hprogramFlag⟩ :=
    applyProgram_rt (station.applyPi (cast.group segment)[0]).2 (cast.header segment) true
  have hfield := applyFlag_congr (hprogram.trans hpi) (hprogramFlag.trans hpiFlag) (cast.header segment) true
  have hblock : (cast.group segment)[1] = some ⟨cast.header segment, true⟩ := rfl
  have hother : ¬cast.header segment >>> 12 = 0 := by
    rw [hkind]
    decide
  have hpair : ¬(cast.header segment &&& 0x0800 != 0) = true := by
    rw [hversion]
    decide
  unfold apply
  rw [hblock]
  dsimp only
  rw [if_neg hother, if_pos hkind, applyRadioText]
  dsimp only
  rw [if_neg hpair, hplace, fieldOf, ← hfield]
  refine ⟨rfl, ?_⟩
  rw [← hflag]
  rfl

theorem after_snoc (heard : List Group) (group : Group) :
    after (heard ++ [group]) = ((after heard).apply group).2 := by
  unfold after
  rw [List.foldl_append]
  rfl

end Station

theorem mem_stream {casts : List Cast} {group : Group} (hgroup : group ∈ stream casts) :
    ∃ cast ∈ casts, ∃ segment < cast.segments, group = cast.group segment := by
  obtain ⟨cast, hcast, hgroup⟩ := List.mem_flatMap.mp hgroup
  obtain ⟨cycle, hcycle, hgroup⟩ := List.mem_flatten.mp hgroup
  rw [List.eq_of_mem_replicate hcycle] at hgroup
  obtain ⟨segment, hsegment, rfl⟩ := List.mem_map.mp hgroup
  exact ⟨cast, hcast, segment, List.mem_range.mp hsegment, rfl⟩

theorem shows_apply {casts : List Cast} {station : Station}
    (hshows : TextField.Shows (casts.map Cast.message) station.rt) {group : Group} (hgroup : group ∈ stream casts)
    (hunmixed : station.Unmixed (casts.map Cast.message) group) :
    TextField.Shows (casts.map Cast.message) (station.apply group).2.rt := by
  obtain ⟨cast, hcast, segment, hsegment, rfl⟩ := mem_stream hgroup
  have hlt := lt_of_lt_of_le hsegment cast.segments_le
  have hmessage : cast.message ∈ casts.map Cast.message := List.mem_map_of_mem hcast
  have hplaces : 4 * segment + 3 < (Cast.rtBytes cast.message).length := by
    obtain ⟨count, hcount⟩ := (Cast.length_rtBytes cast.short).1
    unfold Cast.segments at hsegment
    omega
  have hfield : TextField.Shows (casts.map Cast.message) (station.fieldOf ⟨cast.header segment, true⟩) := by
    unfold Station.fieldOf Station.applyFlag
    rw [if_pos rfl]
    dsimp only
    split
    · exact hshows.clear
    · exact hshows
  obtain ⟨hfirst, hsecond⟩ := hunmixed _ _ _ rfl rfl rfl
  rw [(header_spec cast hlt).2.2.2] at hfirst hsecond
  rw [(station.apply_group cast hlt).1]
  exact (hfield.write hmessage (by omega) hfirst).write hmessage (by omega) hsecond

theorem shows_after {casts : List Cast} {start : ℕ}
    (hunmixed : ∀ heard group later, (stream casts).drop start = heard ++ group :: later →
      (Station.after heard).Unmixed (casts.map Cast.message) group)
    (heard later : List Group) (hheard : (stream casts).drop start = heard ++ later) :
    TextField.Shows (casts.map Cast.message) (Station.after heard).rt := by
  induction heard using List.reverseRecOn generalizing later with
  | nil => exact TextField.shows_new _
  | append_singleton heard group ih =>
    rw [List.append_assoc, List.singleton_append] at hheard
    have hmem : group ∈ stream casts := by
      apply List.mem_of_mem_drop (i := start)
      rw [hheard]
      exact List.mem_append_right _ List.mem_cons_self
    rw [Station.after_snoc]
    exact shows_apply (ih (group :: later) hheard) hmem (hunmixed heard group later hheard)

def firstOf (flag : Bool) : Cast where
  message := "AAAABBBB".toList.map fun c ↦ UInt8.ofNat c.toNat
  nonempty := by decide
  short := by decide
  plain := by decide
  pi := 0xD392
  tp := false
  pty := 0
  flag := flag
  cycles := 1
  sent := by decide

def secondOf (flag : Bool) : Cast where
  message := "CCCCDDDD".toList.map fun c ↦ UInt8.ofNat c.toNat
  nonempty := by decide
  short := by decide
  plain := by decide
  pi := 0xD392
  tp := false
  pty := 0
  flag := flag
  cycles := 1
  sent := by decide

/-- What is held is of one message. -/
def View.OfMessage (cast : Cast) (view : View) : Prop :=
  ∀ place byte, view place = some byte → (Cast.rtBytes cast.message)[place]? = some byte

section Toggled

variable {cast : Cast} {view : View} {place : ℕ} {byte hi lo : UInt8}

theorem ofMessage_none (cast : Cast) : View.OfMessage cast fun _ ↦ none := nofun

theorem View.OfMessage.overlay (hview : View.OfMessage cast view)
    (hbyte : (Cast.rtBytes cast.message)[place]? = some byte) : View.OfMessage cast (view.overlay place byte) := by
  intro other held hheld
  by_cases hsame : other = place
  · subst hsame
    rw [overlay_self] at hheld
    rw [hbyte, hheld]
  · unfold View.overlay at hheld
    split at hheld
    · rw [Function.update_of_ne hsame] at hheld
      exact hview other held hheld
    · rw [Function.update_of_ne hsame] at hheld
      exact nomatch hheld

theorem View.OfMessage.within (hview : View.OfMessage cast view) {messages : List (List UInt8)}
    (hcast : cast.message ∈ messages) : Within messages view := by
  intro content hreads
  rw [(hreads.mono hview).unique cast.reads_rtBytes]
  exact hcast

theorem View.OfMessage.closes (hview : View.OfMessage cast view) {messages : List (List UInt8)}
    (hcast : cast.message ∈ messages) (hhi : (Cast.rtBytes cast.message)[place]? = some hi)
    (hlo : (Cast.rtBytes cast.message)[place + 1]? = some lo) : View.ClosesWithin messages view place hi lo := by
  intro hagrees _
  rw [← overlay_agrees hagrees]
  exact ((hview.overlay hhi).overlay hlo).within hcast

/-- The field as a group with this flag finds it. -/
def Station.flagged (station : Station) (flag : Bool) : TextField :=
  if station.rtFlag.any (· ≠ flag) then station.rt.clear else station.rt

theorem fieldOf_group (station : Station) (cast : Cast) {segment : ℕ} (hsegment : segment < 16) :
    station.fieldOf ⟨cast.header segment, true⟩ = station.flagged cast.flag := by
  unfold Station.fieldOf Station.applyFlag
  rw [if_pos rfl, (header_spec cast hsegment).2.2.1]
  rfl

/-- The station is ready for a group of this message. -/
structure Ready (station : Station) (cast : Cast) : Prop where
  rt : (station.flagged cast.flag).IsRt
  held : View.OfMessage cast (station.flagged cast.flag).held

theorem Ready.group {station : Station} (hready : Ready station cast) {messages : List (List UInt8)}
    (hcast : cast.message ∈ messages) {segment : ℕ} (hsegment : segment < cast.segments) :
    station.Unmixed messages (cast.group segment) ∧ (station.apply (cast.group segment)).2.rt.IsRt ∧
      View.OfMessage cast (station.apply (cast.group segment)).2.rt.held ∧
      (station.apply (cast.group segment)).2.rtFlag = some cast.flag := by
  have hlt := lt_of_lt_of_le hsegment cast.segments_le
  have hplaces : 4 * segment + 3 < (Cast.rtBytes cast.message).length := by
    obtain ⟨count, hcount⟩ := (Cast.length_rtBytes cast.short).1
    unfold Cast.segments at hsegment
    omega
  have hroom := (Cast.length_rtBytes cast.short).2
  obtain ⟨hhi, hlo⟩ := Cast.pairAt_spec (show 4 * segment + 1 < (Cast.rtBytes cast.message).length by omega)
  obtain ⟨hhi', hlo'⟩ := Cast.pairAt_spec (show 4 * segment + 2 + 1 < (Cast.rtBytes cast.message).length by omega)
  obtain ⟨hheld, hrt⟩ := TextField.held_write hready.rt (show 4 * segment + 1 < rtLen by omega)
    (Cast.pairAt (Cast.rtBytes cast.message) (4 * segment))
  obtain ⟨hheld', hrt'⟩ := TextField.held_write hrt (show 4 * segment + 2 + 1 < rtLen by omega)
    (Cast.pairAt (Cast.rtBytes cast.message) (4 * segment + 2))
  have hfirst : View.OfMessage cast ((station.flagged cast.flag).write (4 * segment)
      (Cast.pairAt (Cast.rtBytes cast.message) (4 * segment)) true).2.held := by
    rw [hheld]
    exact (hready.held.overlay hhi).overlay hlo
  obtain ⟨happly, hflag⟩ := station.apply_group cast hlt
  rw [fieldOf_group station cast hlt] at happly
  refine ⟨?_, happly ▸ hrt', ?_, hflag⟩
  · rintro b c d ⟨⟩ ⟨⟩ ⟨⟩
    dsimp only
    rw [(header_spec cast hlt).2.2.2, fieldOf_group station cast hlt]
    exact ⟨hready.held.closes hcast hhi hlo, hfirst.closes hcast hhi' hlo'⟩
  · rw [happly, hheld']
    exact (hfirst.overlay hhi').overlay hlo'

/-- A group with the message of the last one, or with another flag, finds nothing of another message. -/
theorem ready_next {station : Station} {next : Cast} (hrt : station.rt.IsRt)
    (hheld : View.OfMessage cast station.rt.held) (hflag : station.rtFlag = some cast.flag)
    (htoggled : cast.message = next.message ∨ cast.flag ≠ next.flag) : Ready station next := by
  by_cases hsame : cast.flag = next.flag
  · have hkept : station.flagged next.flag = station.rt := by
      unfold Station.flagged
      rw [hflag, hsame, Option.any_some, decide_eq_false (not_not.mpr rfl), if_neg Bool.false_ne_true]
    refine ⟨hkept ▸ hrt, ?_⟩
    rw [hkept]
    intro place byte hbyte
    rw [← htoggled.resolve_right (not_not.mpr hsame)]
    exact hheld place byte hbyte
  · have hcleared : station.flagged next.flag = station.rt.clear := by
      unfold Station.flagged
      rw [hflag, Option.any_some, decide_eq_true hsame, if_pos rfl]
    refine ⟨hcleared ▸ hrt.clear, ?_⟩
    rw [hcleared, TextField.held_clear]
    exact ofMessage_none next

end Toggled

/-- The message and the segment of each of its groups. -/
def Cast.entries (cast : Cast) : List (Cast × ℕ) :=
  (List.replicate cast.cycles ((List.range cast.segments).map (cast, ·))).flatten

/-- The messages and the segments of a stream, in the order of its groups. -/
def schedule (casts : List Cast) : List (Cast × ℕ) := casts.flatMap Cast.entries

theorem stream_eq (casts : List Cast) : stream casts = (schedule casts).map fun entry ↦ entry.1.group entry.2 := by
  rw [stream, schedule, List.map_flatMap]
  apply congrArg (fun groups ↦ List.flatMap groups casts)
  funext cast
  rw [Cast.groups, Cast.entries, List.map_flatten, List.map_replicate, List.map_map]
  rfl

theorem segments_pos (cast : Cast) : 0 < cast.segments := by
  obtain ⟨count, hcount⟩ := (Cast.length_rtBytes cast.short).1
  have hpos : 0 < (Cast.rtBytes cast.message).length := by
    by_contra hzero
    have hmessage := List.length_pos_of_ne_nil cast.nonempty
    have hfirst := Cast.getElem?_rtBytes hmessage
    rw [List.getElem?_eq_none (by omega), List.getElem?_eq_getElem hmessage] at hfirst
    exact nomatch hfirst
  unfold Cast.segments
  omega

theorem mem_schedule {casts : List Cast} {entry : Cast × ℕ} (hentry : entry ∈ schedule casts) :
    entry.1 ∈ casts ∧ entry.2 < entry.1.segments := by
  obtain ⟨cast, hcast, hentry⟩ := List.mem_flatMap.mp hentry
  obtain ⟨cycle, hcycle, hentry⟩ := List.mem_flatten.mp hentry
  rw [List.eq_of_mem_replicate hcycle] at hentry
  obtain ⟨segment, hsegment, rfl⟩ := List.mem_map.mp hentry
  exact ⟨hcast, List.mem_range.mp hsegment⟩

/-- A new message comes with the other flag. -/
def Toggles (first second : Cast) : Prop := first.message = second.message ∨ first.flag ≠ second.flag

instance (first second : Cast) : Decidable (Toggles first second) :=
  inferInstanceAs (Decidable (first.message = second.message ∨ first.flag ≠ second.flag))

theorem chain_schedule {casts : List Cast} (htoggles : casts.IsChain Toggles) :
    (schedule casts).IsChain fun first second ↦ Toggles first.1 second.1 := by
  have hone : ∀ cast : Cast, ∀ entry ∈ cast.entries, entry.1 = cast := by
    intro cast entry hentry
    obtain ⟨cycle, hcycle, hentry⟩ := List.mem_flatten.mp hentry
    rw [List.eq_of_mem_replicate hcycle] at hentry
    obtain ⟨segment, -, rfl⟩ := List.mem_map.mp hentry
    rfl
  have hne : [] ∉ casts.map Cast.entries := by
    intro hmem
    obtain ⟨cast, -, hnil⟩ := List.mem_map.mp hmem
    have hlength := congrArg List.length hnil
    rw [Cast.entries, List.length_flatten, List.map_replicate, List.sum_replicate, List.length_map, List.length_range,
      List.length_nil, smul_eq_mul] at hlength
    exact absurd hlength (Nat.mul_pos cast.sent (segments_pos cast)).ne'
  rw [schedule, List.flatMap_def, List.isChain_flatten hne]
  constructor
  · intro part hpart
    obtain ⟨cast, -, rfl⟩ := List.mem_map.mp hpart
    apply List.Pairwise.isChain
    apply List.pairwise_of_forall_mem_list
    intro first hfirst second hsecond
    rw [hone cast first hfirst, hone cast second hsecond]
    exact Or.inl rfl
  · rw [List.isChain_map]
    apply htoggles.imp
    intro first second htoggle last hlast next hnext
    rw [hone first last (List.mem_of_mem_getLast? hlast), hone second next (List.mem_of_mem_head? hnext)]
    exact htoggle

theorem unmixed_of_ready {messages : List (List UInt8)} {entries : List (Cast × ℕ)} {station : Station}
    (hchain : entries.IsChain fun first second ↦ Toggles first.1 second.1)
    (hentries : ∀ entry ∈ entries, entry.1.message ∈ messages ∧ entry.2 < entry.1.segments)
    (hready : ∀ entry ∈ entries.head?, Ready station entry.1) {heard later : List Group} {group : Group}
    (hheard : (entries.map fun entry ↦ entry.1.group entry.2) = heard ++ group :: later) :
    (heard.foldl (fun station group ↦ (station.apply group).2) station).Unmixed messages group := by
  induction entries generalizing station heard with
  | nil => exact absurd hheard.symm (List.append_ne_nil_of_right_ne_nil _ (List.cons_ne_nil _ _))
  | cons entry entries ih =>
    obtain ⟨hmessage, hsegment⟩ := hentries entry List.mem_cons_self
    obtain ⟨hunmixed, hrt, hheld, hflag⟩ := (hready entry rfl).group hmessage hsegment
    rw [List.map_cons] at hheard
    cases heard with
    | nil =>
      rw [List.nil_append, List.cons.injEq] at hheard
      rw [List.foldl_nil, ← hheard.1]
      exact hunmixed
    | cons first heard =>
      rw [List.cons_append, List.cons.injEq] at hheard
      rw [List.foldl_cons, ← hheard.1]
      apply ih hchain.tail (fun other hother ↦ hentries other (List.mem_cons_of_mem _ hother)) _ hheard.2
      intro next hnext
      apply ready_next hrt hheld hflag
      cases entries with
      | nil => exact nomatch hnext
      | cons second entries =>
        obtain rfl := Option.some_inj.mp hnext
        exact (List.isChain_cons_cons.mp hchain).1

/-- With a flag that toggles whenever the message is another one, nothing is blended. -/
theorem unmixed_of_toggles {casts : List Cast} (htoggles : casts.IsChain Toggles) (start : ℕ)
    {heard later : List Group} {group : Group} (hheard : (stream casts).drop start = heard ++ group :: later) :
    (Station.after heard).Unmixed (casts.map Cast.message) group := by
  rw [stream_eq, ← List.map_drop] at hheard
  apply unmixed_of_ready ((chain_schedule htoggles).drop start) _ _ hheard
  · intro entry hentry
    obtain ⟨hcast, hsegment⟩ := mem_schedule (List.mem_of_mem_drop hentry)
    exact ⟨List.mem_map_of_mem hcast, hsegment⟩
  · intro entry _
    exact ⟨TextField.isRt_new, TextField.held_new rtLen true ▸ ofMessage_none entry.1⟩

end Sdrmm.Rds
