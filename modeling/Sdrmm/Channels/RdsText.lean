import Sdrmm.Channels.Rds

/-!
# What the text field holds

The radio text of a station as the characters it holds, place by place.  A pair of trusted characters is laid over
them, or takes their place where it contradicts one, and a text is complete when they read as one.
-/

namespace Sdrmm.Rds

/-! ## Characters by place -/

abbrev View := ℕ → Option UInt8

namespace View

variable {view : View} {content : List UInt8} {place : ℕ} {hi lo : UInt8}

/-- The characters in front of the first terminator, or of the end of the field. -/
structure Reads (view : View) (content : List UInt8) : Prop where
  short : content.length ≤ rtLen
  plain : rtTerminator ∉ content
  chars : ∀ place < content.length, view place = content[place]?
  ended : content.length < rtLen → view content.length = some rtTerminator

theorem Reads.plain_at (hreads : Reads view content) (hplace : place < content.length) :
    view place ≠ some rtTerminator := by
  intro hview
  rw [hreads.chars place hplace] at hview
  exact hreads.plain (List.mem_of_getElem? hview)

/-- Characters read as one text. -/
theorem Reads.unique {other : List UInt8} (hreads : Reads view content) (hother : Reads view other) :
    content = other := by
  have hle : ∀ {first second : List UInt8}, Reads view first → Reads view second → first.length ≤ second.length := by
    intro first second hfirst hsecond
    by_contra hlt
    have hshort := hfirst.short
    exact hfirst.plain_at (Nat.not_le.mp hlt) (hsecond.ended (by omega))
  have hlength := Nat.le_antisymm (hle hreads hother) (hle hother hreads)
  apply List.ext_getElem? fun place ↦ ?_
  by_cases hplace : place < content.length
  · rw [← hreads.chars place hplace, ← hother.chars place (hlength ▸ hplace)]
  · rw [List.getElem?_eq_none (Nat.not_lt.mp hplace), List.getElem?_eq_none (hlength ▸ Nat.not_lt.mp hplace)]

/-- Characters that are added change nothing of a text that is read. -/
theorem Reads.mono {later : View} (hreads : Reads view content)
    (hkept : ∀ place byte, view place = some byte → later place = some byte) : Reads later content where
  short := hreads.short
  plain := hreads.plain
  chars := by
    intro place hplace
    have hview := hreads.chars place hplace
    rw [List.getElem?_eq_getElem hplace] at hview ⊢
    exact hkept place _ hview
  ended := fun hlt ↦ hkept _ _ (hreads.ended hlt)

/-- A character is laid over the others, unless it contradicts the one in its place: then it is the only one. -/
def overlay (view : View) (place : ℕ) (byte : UInt8) : View :=
  if view place = none ∨ view place = some byte then Function.update view place (some byte)
  else Function.update (fun _ ↦ none) place (some byte)

theorem overlay_self (view : View) (place : ℕ) (byte : UInt8) : overlay view place byte place = some byte := by
  unfold overlay
  split
  · exact Function.update_self ..
  · exact Function.update_self ..

/-- Nothing held contradicts the pair. -/
def Agrees (view : View) (place : ℕ) (hi lo : UInt8) : Prop :=
  (view place = none ∨ view place = some hi) ∧ (view (place + 1) = none ∨ view (place + 1) = some lo)

/-- The characters with the pair. -/
def joined (view : View) (place : ℕ) (hi lo : UInt8) : View :=
  Function.update (Function.update view place (some hi)) (place + 1) (some lo)

theorem overlay_agrees (hagrees : Agrees view place hi lo) :
    overlay (overlay view place hi) (place + 1) lo = joined view place hi lo := by
  rw [overlay, overlay, if_pos hagrees.1, if_pos]
  · rfl
  · rw [Function.update_of_ne (by omega)]
    exact hagrees.2

theorem joined_kept (hagrees : Agrees view place hi lo) (held : ℕ) (byte : UInt8) (hview : view held = some byte) :
    joined view place hi lo held = some byte := by
  unfold joined
  by_cases hlast : held = place + 1
  · subst hlast
    rw [Function.update_self]
    rcases hagrees.2 with hnone | hsome
    · exact nomatch hnone.symm.trans hview
    · exact hsome.symm.trans hview
  · rw [Function.update_of_ne hlast]
    by_cases hfirst : held = place
    · subst hfirst
      rw [Function.update_self]
      rcases hagrees.1 with hnone | hsome
      · exact nomatch hnone.symm.trans hview
      · exact hsome.symm.trans hview
    · rwa [Function.update_of_ne hfirst]

/-- A pair that contradicts a character leaves nothing else. -/
theorem overlay_contradicts (hcontradicts : ¬Agrees view place hi lo) {held : ℕ} {byte : UInt8}
    (hheld : overlay (overlay view place hi) (place + 1) lo held = some byte) :
    held = place ∧ byte = hi ∨ held = place + 1 ∧ byte = lo := by
  by_cases hlast : held = place + 1
  · subst hlast
    rw [overlay_self] at hheld
    exact Or.inr ⟨rfl, (Option.some_inj.mp hheld).symm⟩
  · left
    unfold overlay at hheld
    by_cases hfirst : view place = none ∨ view place = some hi
    · have hsecond : ¬(view (place + 1) = none ∨ view (place + 1) = some lo) := fun h ↦ hcontradicts ⟨hfirst, h⟩
      rw [if_pos hfirst, Function.update_of_ne (show place + 1 ≠ place by omega), if_neg hsecond,
        Function.update_of_ne hlast] at hheld
      exact nomatch hheld
    · rw [if_neg hfirst, Function.update_of_ne (show place + 1 ≠ place by omega), if_pos (Or.inl rfl),
        Function.update_of_ne hlast] at hheld
      by_cases hplace : held = place
      · subst hplace
        rw [Function.update_self] at hheld
        exact ⟨rfl, (Option.some_inj.mp hheld).symm⟩
      · rw [Function.update_of_ne hplace] at hheld
        exact nomatch hheld

/-- Whatever is read is one of the messages. -/
def Within (messages : List (List UInt8)) (view : View) : Prop := ∀ content, Reads view content → content ∈ messages

/-- A pair does not close the last gap of characters that are no message with it. -/
def ClosesWithin (messages : List (List UInt8)) (view : View) (place : ℕ) (hi lo : UInt8) : Prop :=
  Agrees view place hi lo → (∀ content, ¬Reads view content) → Within messages (joined view place hi lo)

theorem Within.overlay {messages : List (List UInt8)} (hwithin : Within messages view)
    (hcloses : ClosesWithin messages view place hi lo)
    (hpair : ∀ content, Reads (overlay (overlay view place hi) (place + 1) lo) content →
      ¬Agrees view place hi lo → content ∈ messages) :
    Within messages (overlay (overlay view place hi) (place + 1) lo) := by
  intro content hcontent
  by_cases hagrees : Agrees view place hi lo
  · rw [overlay_agrees hagrees] at hcontent
    by_cases hfull : ∃ before, Reads view before
    · obtain ⟨before, hbefore⟩ := hfull
      rw [← (hbefore.mono (joined_kept hagrees)).unique hcontent]
      exact hwithin before hbefore
    · exact hcloses hagrees (not_exists.mp hfull) content hcontent
  · exact hpair content hcontent hagrees

/-- A pair that stands alone reads as a text of one character. -/
theorem Reads.alone (hreads : Reads (overlay (overlay view place hi) (place + 1) lo) content)
    (hcontradicts : ¬Agrees view place hi lo) (hplain : place = 0 → hi ≠ rtTerminator) :
    place = 0 ∧ content = [hi] ∧ lo = rtTerminator := by
  have honly := @overlay_contradicts view place hi lo hcontradicts
  have hlength : content.length < 2 := by
    by_contra hlong
    obtain ⟨byte, hbyte⟩ : ∃ byte, overlay (overlay view place hi) (place + 1) lo 2 = some byte := by
      by_cases htwo : content.length = 2
      · have hended := hreads.ended (by rw [htwo]; decide)
        rw [htwo] at hended
        exact ⟨_, hended⟩
      · have hthird := hreads.chars 2 (by omega)
        rw [List.getElem?_eq_getElem (show 2 < content.length by omega)] at hthird
        exact ⟨_, hthird⟩
    obtain ⟨first, hfirst⟩ : ∃ byte, overlay (overlay view place hi) (place + 1) lo 0 = some byte := by
      have hhead := hreads.chars 0 (by omega)
      rw [List.getElem?_eq_getElem (show 0 < content.length by omega)] at hhead
      exact ⟨_, hhead⟩
    have hthird := honly hbyte
    have hhead := honly hfirst
    omega
  match content, hreads, hlength with
  | [], hreads, _ =>
    have hhead := honly (hreads.ended (by decide))
    have hzero : place = 0 := by
      rw [List.length_nil] at hhead
      omega
    subst hzero
    rcases hhead with ⟨-, hhi⟩ | ⟨hlt, -⟩
    · exact absurd hhi.symm (hplain rfl)
    · exact absurd hlt (by decide)
  | [byte], hreads, _ =>
    have hhead := honly (hreads.chars 0 Nat.one_pos)
    have hlast := honly (hreads.ended (show 1 < rtLen by decide))
    simp only [List.length_singleton] at hlast
    have hzero : place = 0 := by omega
    subst hzero
    rcases hhead with ⟨-, rfl⟩ | ⟨hlt, -⟩
    · rcases hlast with ⟨hlt, -⟩ | ⟨-, hlo⟩
      · exact absurd hlt (by decide)
      · exact ⟨rfl, rfl, hlo.symm⟩
    · exact absurd hlt (by decide)

end View

/-! ## The field -/

namespace TextField

open View

variable {field : TextField} {place : ℕ} {byte : UInt8}

def held (field : TextField) : View := fun place ↦ if field.seen.testBit place then field.chars[place]? else none

/-- A field for radio text. -/
structure IsRt (field : TextField) : Prop where
  chars : field.chars.length = rtLen
  len : field.len = rtLen
  terminated : field.terminated = true

theorem isRt_new : IsRt (.new rtLen true) := ⟨List.length_replicate, rfl, rfl⟩

theorem held_new (len : ℕ) (terminated : Bool) : (new len terminated).held = fun _ ↦ none := by
  funext place
  rw [held, new, Nat.zero_testBit, if_neg Bool.false_ne_true]

theorem held_clear (field : TextField) : field.clear.held = fun _ ↦ none := by
  funext place
  rw [held, clear, Nat.zero_testBit, if_neg Bool.false_ne_true]

theorem IsRt.clear (hrt : IsRt field) : IsRt field.clear := ⟨List.length_replicate, hrt.len, hrt.terminated⟩

theorem IsRt.put (hrt : IsRt field) (place : ℕ) (byte : UInt8) : IsRt (field.put place byte) :=
  ⟨List.length_set.trans hrt.chars, hrt.len, hrt.terminated⟩

theorem IsRt.stage (hrt : IsRt field) (place : ℕ) (byte : UInt8) : IsRt (field.stage place byte) :=
  ⟨hrt.chars, hrt.len, hrt.terminated⟩

theorem held_put (hrt : IsRt field) (hplace : place < rtLen) (byte : UInt8) :
    (field.put place byte).held = Function.update field.held place (some byte) := by
  funext other
  rw [held, put, Nat.testBit_or, Nat.one_shiftLeft, Nat.testBit_two_pow]
  by_cases hsame : other = place
  · subst hsame
    rw [Function.update_self, decide_eq_true rfl, Bool.or_true, if_pos rfl,
      List.getElem?_set_self (hrt.chars.symm ▸ hplace)]
  · rw [Function.update_of_ne hsame, decide_eq_false (Ne.symm hsame), Bool.or_false,
      List.getElem?_set_ne (Ne.symm hsame), held]

theorem writeByte_trusted (hrt : IsRt field) (hplace : place < rtLen) (byte : UInt8) :
    (field.writeByte place byte true).held = overlay field.held place byte ∧
      IsRt (field.writeByte place byte true) := by
  have hlt : ¬place ≥ field.len := by
    rw [hrt.len]
    exact Nat.not_le.mpr hplace
  have hstaged : (field.stage place byte).held = field.held := rfl
  obtain ⟨char, hchar⟩ : ∃ char, field.chars[place]? = some char :=
    ⟨_, List.getElem?_eq_getElem (hrt.chars.symm ▸ hplace)⟩
  have hrtStaged := hrt.stage place byte
  unfold writeByte
  rw [if_neg hlt]
  dsimp only
  rw [Bool.not_true, Bool.false_and, if_neg Bool.false_ne_true]
  by_cases hseen : field.seen.testBit place = true
  · have hheld : field.held place = field.chars[place]? := if_pos hseen
    rw [if_pos (show (field.stage place byte).seen.testBit place = true from hseen)]
    by_cases hsame : field.chars[place]? = some byte
    · rw [if_pos (show (field.stage place byte).chars[place]? = some byte from hsame)]
      refine ⟨?_, hrtStaged⟩
      rw [hstaged, overlay, if_pos (Or.inr (hheld.trans hsame)), ← hsame, ← hheld, Function.update_eq_self]
    · have hother : ¬(field.held place = none ∨ field.held place = some byte) := by
        rw [hheld]
        rintro (hnone | hbyte)
        · exact nomatch hchar.symm.trans hnone
        · exact hsame hbyte
      rw [if_neg (show ¬(field.stage place byte).chars[place]? = some byte from hsame)]
      refine ⟨?_, hrtStaged.clear.put place byte⟩
      rw [held_put hrtStaged.clear hplace, held_clear, overlay, if_neg hother]
  · have hheld : field.held place = none := if_neg hseen
    rw [if_neg (show ¬(field.stage place byte).seen.testBit place = true from hseen)]
    refine ⟨?_, hrtStaged.put place byte⟩
    rw [held_put hrtStaged hplace, hstaged, overlay, if_pos (Or.inl hheld)]

theorem writePair_trusted (hrt : IsRt field) (hplace : place + 1 < rtLen) (chars : UInt16) :
    (field.writePair place chars true).held =
        overlay (overlay field.held place (chars >>> 8).toUInt8) (place + 1) chars.toUInt8 ∧
      IsRt (field.writePair place chars true) := by
  obtain ⟨hheld, hfirst⟩ := writeByte_trusted hrt (Nat.lt_of_succ_lt hplace) (chars >>> 8).toUInt8
  rw [← hheld]
  exact writeByte_trusted hfirst hplace chars.toUInt8

/-! ## Completeness -/

theorem testBit_lowMask (bits i : ℕ) : (lowMask bits).testBit i = decide (i < min bits 64) := by
  unfold lowMask
  by_cases hall : bits ≥ 64
  · rw [if_pos hall, Nat.testBit_two_pow_sub_one, Nat.min_eq_right hall]
  · rw [if_neg hall, Nat.one_shiftLeft, Nat.testBit_two_pow_sub_one, Nat.min_eq_left (by omega)]

theorem and_lowMask {seen bits : ℕ} (hbits : bits ≤ 64) :
    seen &&& lowMask bits = lowMask bits ↔ ∀ i < bits, seen.testBit i = true := by
  constructor
  · intro hand i hi
    have hbit := congrArg (·.testBit i) hand
    simp only [Nat.testBit_and, testBit_lowMask, Nat.min_eq_left hbits, decide_eq_true hi, Bool.and_true] at hbit
    exact hbit
  · intro hall
    apply Nat.eq_of_testBit_eq
    intro i
    rw [Nat.testBit_and, testBit_lowMask, Nat.min_eq_left hbits]
    by_cases hi : i < bits
    · rw [hall i hi, Bool.true_and]
    · rw [decide_eq_false hi, Bool.and_false]

theorem held_eq_some :
    field.held place = some byte ↔ field.seen.testBit place = true ∧ field.chars[place]? = some byte := by
  unfold held
  by_cases hseen : field.seen.testBit place = true
  · rw [if_pos hseen]
    exact ⟨fun h ↦ ⟨hseen, h⟩, fun h ↦ h.2⟩
  · rw [if_neg hseen]
    exact ⟨nofun, fun h ↦ absurd h.1 hseen⟩

/-- The text ends at the first terminator, or with the field. -/
theorem ending_spec (hrt : IsRt field) :
    field.ending ≤ rtLen ∧ (∀ place < field.ending, field.held place ≠ some rtTerminator) ∧
      (field.ending < rtLen → field.held field.ending = some rtTerminator) := by
  have hfound : ∀ i, (field.seen.testBit i && field.chars[i]? == some rtTerminator) = true ↔
      field.held i = some rtTerminator := by
    intro i
    rw [Bool.and_eq_true, beq_iff_eq, held_eq_some]
  rw [ending, if_pos hrt.terminated, hrt.len]
  cases hfind : (List.range rtLen).find? fun i ↦ field.seen.testBit i && field.chars[i]? == some rtTerminator with
  | none =>
    rw [Option.getD_none]
    refine ⟨le_rfl, ?_, fun hlt ↦ absurd hlt (Nat.lt_irrefl _)⟩
    intro place hplace hheld
    exact List.find?_eq_none.mp hfind place (List.mem_range.mpr hplace) ((hfound place).mpr hheld)
  | some last =>
    obtain ⟨hlast, hmem, hfirst⟩ := List.find?_range_eq_some.mp hfind
    rw [Option.getD_some]
    refine ⟨(List.mem_range.mp hmem).le, ?_, fun _ ↦ (hfound last).mp hlast⟩
    intro place hplace hheld
    have hnot := hfirst place hplace
    rw [(hfound place).mpr hheld] at hnot
    exact Bool.false_ne_true hnot

/-- A text is complete exactly when the characters read as one. -/
theorem complete_eq_some (hrt : IsRt field) {shown : List Char} :
    field.complete = some shown ↔ ∃ content, Reads field.held content ∧ shown = Rds.text content := by
  obtain ⟨hle, hbefore, hended⟩ := ending_spec hrt
  have hlength : (field.chars.take field.ending).length = field.ending := by
    rw [List.length_take, hrt.chars, Nat.min_eq_left hle]
  have hchars : ∀ place < field.ending, (field.chars.take field.ending)[place]? = field.chars[place]? :=
    fun place hplace ↦ List.getElem?_take_of_lt hplace
  unfold complete
  dsimp only
  constructor
  · intro hcomplete
    split at hcomplete
    · rename_i hneeded
      have hseen := (and_lowMask hle).mp hneeded
      have hheld : ∀ place < field.ending, field.held place = field.chars[place]? :=
        fun place hplace ↦ if_pos (hseen place hplace)
      refine ⟨field.chars.take field.ending, ⟨hlength.le.trans hle, ?_, ?_, ?_⟩, (Option.some_inj.mp hcomplete).symm⟩
      · intro hmem
        obtain ⟨place, hplace, hterminator⟩ := List.getElem_of_mem hmem
        rw [hlength] at hplace
        apply hbefore place hplace
        rw [hheld place hplace, ← hchars place hplace, ← hterminator, List.getElem?_eq_getElem]
      · intro place hplace
        rw [hlength] at hplace
        rw [hheld place hplace, hchars place hplace]
      · rw [hlength]
        exact hended
    · exact nomatch hcomplete
  · rintro ⟨content, hreads, rfl⟩
    have hending : field.ending = content.length := by
      apply Nat.le_antisymm
      · by_contra hlt
        exact hbefore _ (Nat.not_le.mp hlt) (hreads.ended (by omega))
      · by_contra hlt
        exact hreads.plain_at (Nat.not_le.mp hlt) (hended (lt_of_lt_of_le (Nat.not_le.mp hlt) hreads.short))
    have hheld : ∀ place < content.length,
        field.seen.testBit place = true ∧ field.chars[place]? = content[place]? := by
      intro place hplace
      have hchar := hreads.chars place hplace
      rw [List.getElem?_eq_getElem hplace] at hchar ⊢
      exact held_eq_some.mp hchar
    have hcontent : field.chars.take field.ending = content := by
      apply List.ext_getElem? fun place ↦ ?_
      by_cases hplace : place < content.length
      · rw [hchars place (hending ▸ hplace), (hheld place hplace).2]
      · rw [List.getElem?_eq_none (hlength.trans hending ▸ Nat.not_lt.mp hplace),
          List.getElem?_eq_none (Nat.not_lt.mp hplace)]
    rw [if_pos ((and_lowMask hle).mpr fun place hplace ↦ (hheld place (hending ▸ hplace)).1), hcontent]

end TextField

end Sdrmm.Rds
