import Sdrmm.Lib.Checked
import Sdrmm.Lib.ReflectedCrc

/-!
# Repairing an HDLC frame

`hdlc_fcs_ok` and `hdlc_repair` of `dsp/src/fec.rs`.  The repair tries one flipped bit at every place
and then two adjacent ones, so what it finds is the frame that was sent if no other trial leaves the
same check: the period of the polynomial is longer than the frame, and one bit is never taken for
two because the register keeps its parity.
-/

namespace Sdrmm.HdlcRepair

open Bits BinaryCode ReflectedCrc
open Lib.Checked (Halt)

def ccittPolyReflected : ℕ := 0x8408

def crc16Reflected (init : ℕ) (data : List UInt8) : ℕ := check ccittPolyReflected init data

def crc16X25 (data : List UInt8) : ℕ := 0xFFFF ^^^ crc16Reflected 0xFFFF data

/-- `to_le_bytes` of the check. -/
def fcsBytes (crc : ℕ) : List UInt8 := [UInt8.ofNat crc, UInt8.ofNat (crc >>> 8)]

def hdlcFcsOk (frame : List UInt8) : Bool :=
  if frame.length < 3 then false
  else
    match frame.drop (frame.length - 2) with
    | [lo, hi] => crc16X25 (frame.take (frame.length - 2)) == lo.toNat ||| hi.toNat <<< 8
    | _ => false

/-- Flip the bits of a span. -/
def flipSpan (frame : List UInt8) (place span : ℕ) : List UInt8 :=
  (List.range' place span).foldl flipBit frame

/-- One span tried at the places left; each trial that fails is taken back. -/
def trySpan (span : ℕ) : List ℕ → List UInt8 → Bool × List UInt8
  | [], frame => (false, frame)
  | place :: places, frame =>
    let flipped := flipSpan frame place span
    if hdlcFcsOk flipped then (true, flipped)
    else trySpan span places (flipSpan flipped place span)

def trySpans : List ℕ → List UInt8 → Except Halt (Bool × List UInt8)
  | [], frame => .ok (false, frame)
  | span :: spans, frame => do
    let last ← Lib.Checked.sub (frame.length * 8) span
    let (repaired, frame) := trySpan span (List.range (last + 1)) frame
    if repaired then .ok (true, frame) else trySpans spans frame

def hdlcRepair (frame : List UInt8) : Except Halt (Bool × List UInt8) :=
  if hdlcFcsOk frame then .ok (true, frame) else trySpans [1, 2] frame

/-! ## The polynomial -/

theorem ccitt_lt : ccittPolyReflected < 2 ^ (15 + 1) := by decide

theorem ccitt_top : 2 ^ 15 ≤ ccittPolyReflected := by decide

theorem ccitt_odd : countOnes (15 + 1) ccittPolyReflected % 2 = 1 := by decide

set_option maxRecDepth 100000 in
theorem minimalPeriod_ccitt :
    Function.minimalPeriod (shift ccittPolyReflected) 1 = 32767 := by
  have hrun (n : ℕ) : Function.IsPeriodicPt (shift ccittPolyReflected) n 1 ↔
      ShiftRegister.run (shift ccittPolyReflected) n 1 = 1 := by
    rw [ShiftRegister.run_eq shift_zero]
    rfl
  apply ShiftRegister.minimalPeriod_eq_of_factors [7, 31, 151]
  · norm_num
  · rw [hrun]
    decide
  · intro q hq
    rw [hrun]
    revert q
    decide

/-! ## The check -/

theorem crc16Reflected_lt (data : List UInt8) : crc16Reflected 0xFFFF data < 2 ^ (15 + 1) :=
  check_lt ccitt_lt (by decide) (by decide) data

/-- A frame passes if its register, check bytes included, ends at one fixed value. -/
theorem hdlcFcsOk_iff {frame : List UInt8} : hdlcFcsOk frame = true ↔
    3 ≤ frame.length ∧ crc16Reflected 0xFFFF frame = (shift ccittPolyReflected)^[16] 0xFFFF := by
  unfold hdlcFcsOk
  split
  · rename_i hshort
    constructor
    · exact nofun
    · rintro ⟨hlong, -⟩
      omega
  · rename_i hlong
    obtain ⟨lo, hi, hfcs⟩ : ∃ lo hi, frame.drop (frame.length - 2) = [lo, hi] := by
      apply List.length_eq_two.mp
      rw [List.length_drop]
      omega
    have hframe : frame = frame.take (frame.length - 2) ++ [lo, hi] := by
      rw [← hfcs, List.take_append_drop]
    have hregister : crc16Reflected 0xFFFF frame = (shift ccittPolyReflected)^[16]
        (crc16Reflected 0xFFFF (frame.take (frame.length - 2)) ^^^
          (lo.toNat ||| hi.toNat <<< 8)) := by
      conv_lhs => rw [hframe, crc16Reflected, check_append, check_pair]
      rfl
    have hword : lo.toNat ||| hi.toNat <<< 8 < 2 ^ (15 + 1) := by
      apply Nat.or_lt_two_pow (lo.toNat_lt.trans (by decide))
      rw [Nat.shiftLeft_eq]
      have := hi.toNat_lt
      omega
    rw [hfcs, hregister]
    dsimp only
    rw [beq_iff_eq, crc16X25]
    generalize frame.take (frame.length - 2) = payload
    generalize lo.toNat ||| hi.toNat <<< 8 = word at hword
    have hcrc := crc16Reflected_lt payload
    generalize crc16Reflected 0xFFFF payload = crc at hcrc
    constructor
    · intro hsame
      rw [← hsame, Nat.xor_comm 0xFFFF, Nat.xor_xor_cancel_left]
      exact ⟨by omega, rfl⟩
    · rintro ⟨-, hsame⟩
      have hequal := iterate_inj ccitt_lt ccitt_top (Nat.xor_lt_two_pow hcrc hword) (by decide) hsame
      rw [← hequal, Nat.xor_comm crc, Nat.xor_xor_cancel_right]

theorem hdlcFcsOk_fcsBytes {payload : List UInt8} (hpayload : payload ≠ []) :
    hdlcFcsOk (payload ++ fcsBytes (crc16X25 payload)) = true := by
  have hlength : (payload ++ fcsBytes (crc16X25 payload)).length = payload.length + 2 :=
    List.length_append
  have hpositive := List.length_pos_iff.mpr hpayload
  have hcrc : crc16X25 payload < 2 ^ 16 := Nat.xor_lt_two_pow (by decide) (crc16Reflected_lt payload)
  rw [hdlcFcsOk, if_neg (by omega), hlength, Nat.add_sub_cancel, List.drop_left, List.take_left]
  change (crc16X25 payload ==
    (UInt8.ofNat (crc16X25 payload)).toNat ||| (UInt8.ofNat (crc16X25 payload >>> 8)).toNat <<< 8) = true
  rw [beq_iff_eq, UInt8.toNat_ofNat', UInt8.toNat_ofNat', Nat.shiftRight_eq_div_pow, Nat.or_comm,
    ← Nat.shiftLeft_add_eq_or_of_lt (Nat.mod_lt _ (by decide)), Nat.shiftLeft_eq]
  omega

/-! ## Spans -/

theorem flipSpan_one (frame : List UInt8) (place : ℕ) : flipSpan frame place 1 = flipBit frame place := rfl

theorem flipSpan_two (frame : List UInt8) (place : ℕ) :
    flipSpan frame place 2 = flipBit (flipBit frame place) (place + 1) := rfl

theorem length_flipSpan (frame : List UInt8) (place : ℕ) {span : ℕ} (hspan : span ∈ [1, 2]) :
    (flipSpan frame place span).length = frame.length := by
  rcases List.mem_pair.mp hspan with rfl | rfl
  · rw [flipSpan_one, length_flipBit]
  · rw [flipSpan_two, length_flipBit, length_flipBit]

theorem flipSpan_flipSpan (frame : List UInt8) (place : ℕ) {span : ℕ} (hspan : span ∈ [1, 2]) :
    flipSpan (flipSpan frame place span) place span = frame := by
  rcases List.mem_pair.mp hspan with rfl | rfl
  · rw [flipSpan_one, flipSpan_one, flipBit_flipBit]
  · rw [flipSpan_two, flipSpan_two, flipBit_comm _ (place + 1) place, flipBit_flipBit, flipBit_flipBit]

/-- What a flipped span adds to the register of a frame of `bits` bits. -/
def trace (bits place span : ℕ) : ℕ :=
  if span = 1 then mark ccittPolyReflected (bits - place)
  else mark ccittPolyReflected (bits - (place + 1)) ^^^
    mark ccittPolyReflected (bits - (place + 1) + 1)

theorem crc16Reflected_flipSpan {frame : List UInt8} {place span : ℕ} (hspan : span ∈ [1, 2])
    (hplace : place + span ≤ 8 * frame.length) :
    crc16Reflected 0xFFFF (flipSpan frame place span) =
      crc16Reflected 0xFFFF frame ^^^ trace (8 * frame.length) place span := by
  rcases List.mem_pair.mp hspan with rfl | rfl
  · exact check_flipBit 0xFFFF hplace
  · have hsecond : place + 1 < 8 * (flipBit frame place).length := by
      rw [length_flipBit]
      omega
    have hnext : 8 * frame.length - (place + 1) + 1 = 8 * frame.length - place := by omega
    rw [flipSpan_two, crc16Reflected, check_flipBit 0xFFFF hsecond, length_flipBit,
      check_flipBit 0xFFFF (by omega), trace, if_neg (by decide), hnext, Nat.xor_assoc,
      Nat.xor_comm (mark ccittPolyReflected (8 * frame.length - place))]
    rfl

/-- A span passes the check on a frame that had passed it before another span was flipped only if
the two spans leave the same trace. -/
theorem trace_eq {frame : List UInt8} (hframe : hdlcFcsOk frame = true) {place other span width : ℕ}
    (hspan : span ∈ [1, 2]) (hwidth : width ∈ [1, 2]) (hplace : place + span ≤ 8 * frame.length)
    (hother : other + width ≤ 8 * frame.length)
    (hpassed : hdlcFcsOk (flipSpan (flipSpan frame place span) other width) = true) :
    trace (8 * frame.length) place span = trace (8 * frame.length) other width := by
  have hlength := length_flipSpan frame place hspan
  have hregister := (hdlcFcsOk_iff.mp hpassed).2
  rw [← (hdlcFcsOk_iff.mp hframe).2, crc16Reflected_flipSpan hwidth (by rwa [hlength]),
    crc16Reflected_flipSpan hspan hplace, hlength, Nat.xor_assoc] at hregister
  have hzero := Nat.xor_right_inj.mp (hregister.trans (Nat.xor_zero _).symm)
  exact Nat.eq_of_xor_eq_zero hzero

theorem trace_ne_zero {bits place span : ℕ} (hspan : span ∈ [1, 2]) (hbits : bits < 32767) :
    trace bits place span ≠ 0 := by
  rcases List.mem_pair.mp hspan with rfl | rfl
  · exact mark_ne_zero ccitt_lt ccitt_top _
  · intro hzero
    have hsame := mark_inj minimalPeriod_ccitt (by omega) (by omega) (Nat.eq_of_xor_eq_zero hzero)
    exact absurd hsame (Nat.succ_ne_self _).symm

/-- A single bit is never taken for a pair, nor a span for one elsewhere. -/
theorem trace_inj {bits place other span width : ℕ} (hspan : span ∈ [1, 2]) (hwidth : width ∈ [1, 2])
    (hbits : bits < 32767) (hplace : place + span ≤ bits) (hother : other + width ≤ bits)
    (hsame : trace bits place span = trace bits other width) : place = other ∧ span = width := by
  have hodd (n : ℕ) := parity_mark ccitt_lt ccitt_odd n
  have hpair (a b : ℕ) := countOnes_xor_parity (15 + 1) (mark ccittPolyReflected a)
    (mark ccittPolyReflected b)
  have hones := congrArg (countOnes (15 + 1)) hsame
  rcases List.mem_pair.mp hspan with rfl | rfl <;> rcases List.mem_pair.mp hwidth with rfl | rfl
  · have hinj := mark_inj minimalPeriod_ccitt (by omega) (by omega) hsame
    exact ⟨by omega, rfl⟩
  · have hleft := hodd (bits - place)
    have hfirst := hodd (bits - (other + 1))
    have hsecond := hodd (bits - (other + 1) + 1)
    have hright := hpair (bits - (other + 1)) (bits - (other + 1) + 1)
    rw [trace, trace, if_pos rfl, if_neg (by decide)] at hones
    omega
  · have hleft := hodd (bits - other)
    have hfirst := hodd (bits - (place + 1))
    have hsecond := hodd (bits - (place + 1) + 1)
    have hright := hpair (bits - (place + 1)) (bits - (place + 1) + 1)
    rw [trace, trace, if_neg (by decide), if_pos rfl] at hones
    omega
  · have hinj := pair_inj ccitt_lt ccitt_top minimalPeriod_ccitt (by decide) (by omega) (by omega) hsame
    exact ⟨by omega, rfl⟩

/-! ## The search -/

/-- What a run over the places of a span does: it stops at a trial that passes, or leaves the frame
as it was. -/
theorem trySpan_cases {span : ℕ} (hspan : span ∈ [1, 2]) (places : List ℕ) (frame : List UInt8) :
    (∃ place ∈ places, hdlcFcsOk (flipSpan frame place span) = true ∧
      trySpan span places frame = (true, flipSpan frame place span)) ∨
    ((∀ place ∈ places, hdlcFcsOk (flipSpan frame place span) = false) ∧
      trySpan span places frame = (false, frame)) := by
  induction places with
  | nil => exact Or.inr ⟨nofun, rfl⟩
  | cons place places ih =>
    rw [trySpan, flipSpan_flipSpan frame place hspan]
    cases hpassed : hdlcFcsOk (flipSpan frame place span) with
    | true => exact Or.inl ⟨place, List.mem_cons_self, hpassed, rfl⟩
    | false =>
      rw [if_neg Bool.false_ne_true]
      rcases ih with ⟨found, hfound, hok, hrun⟩ | ⟨hnone, hrun⟩
      · exact Or.inl ⟨found, List.mem_cons_of_mem place hfound, hok, hrun⟩
      · refine Or.inr ⟨?_, hrun⟩
        intro other hother
        rcases List.mem_cons.mp hother with rfl | hother
        · exact hpassed
        · exact hnone other hother

theorem trySpans_cons {span : ℕ} (spans : List ℕ) {frame : List UInt8} (hframe : frame ≠ [])
    (hspan : span ∈ [1, 2]) :
    (∃ place, place + span ≤ 8 * frame.length ∧ hdlcFcsOk (flipSpan frame place span) = true ∧
      trySpans (span :: spans) frame = .ok (true, flipSpan frame place span)) ∨
    ((∀ place, place + span ≤ 8 * frame.length → hdlcFcsOk (flipSpan frame place span) = false) ∧
      trySpans (span :: spans) frame = trySpans spans frame) := by
  have hlength := List.length_pos_iff.mpr hframe
  have hlow : 1 ≤ span ∧ span ≤ 2 := by
    rcases List.mem_pair.mp hspan with rfl | rfl <;> decide
  rw [trySpans, Lib.Checked.sub_of_le (by omega), Lib.Checked.ok_bind]
  rcases trySpan_cases hspan (List.range (frame.length * 8 - span + 1)) frame with
    ⟨place, hplace, hok, hrun⟩ | ⟨hnone, hrun⟩
  · rw [hrun]
    have hlt := List.mem_range.mp hplace
    exact Or.inl ⟨place, by omega, hok, rfl⟩
  · rw [hrun]
    refine Or.inr ⟨?_, rfl⟩
    intro place hplace
    exact hnone place (List.mem_range.mpr (by omega))

/-- The only repair of a damaged frame is the frame before the damage. -/
theorem hdlcRepair_flipSpan {frame : List UInt8} (hframe : hdlcFcsOk frame = true)
    (hlength : frame.length ≤ 4095) {place span : ℕ} (hspan : span ∈ [1, 2])
    (hplace : place + span ≤ 8 * frame.length) :
    hdlcRepair (flipSpan frame place span) = .ok (true, frame) := by
  have hbits : 8 * frame.length < 32767 := by omega
  have hflipped := length_flipSpan frame place hspan
  have hne : flipSpan frame place span ≠ [] := by
    intro hnil
    rw [hnil] at hflipped
    have hpositive := (hdlcFcsOk_iff.mp hframe).1
    rw [← hflipped] at hpositive
    exact absurd hpositive (by decide)
  have hdamaged : hdlcFcsOk (flipSpan frame place span) = false := by
    apply Bool.eq_false_iff.mpr
    intro hpassed
    have hregister := (hdlcFcsOk_iff.mp hpassed).2
    rw [← (hdlcFcsOk_iff.mp hframe).2, crc16Reflected_flipSpan hspan hplace] at hregister
    exact trace_ne_zero hspan hbits (Nat.xor_right_inj.mp (hregister.trans (Nat.xor_zero _).symm))
  have hunique {width other : ℕ} (hwidth : width ∈ [1, 2]) (hother : other + width ≤ 8 * frame.length)
      (hpassed : hdlcFcsOk (flipSpan (flipSpan frame place span) other width) = true) :
      place = other ∧ span = width :=
    trace_inj hspan hwidth hbits hplace hother
      (trace_eq hframe hspan hwidth hplace hother hpassed)
  have hfound (spans : List ℕ) :
      trySpans (span :: spans) (flipSpan frame place span) = .ok (true, frame) := by
    rcases trySpans_cons spans hne hspan with ⟨other, hother, hpassed, hrun⟩ | ⟨hnone, -⟩
    · rw [hflipped] at hother
      obtain ⟨rfl, -⟩ := hunique hspan hother hpassed
      rw [hrun, flipSpan_flipSpan frame place hspan]
    · have hback := hnone place (by rwa [hflipped])
      rw [flipSpan_flipSpan frame place hspan, hframe] at hback
      exact nomatch hback
  rw [hdlcRepair, hdamaged, if_neg Bool.false_ne_true]
  rcases List.mem_pair.mp hspan with rfl | rfl
  · exact hfound [2]
  · rcases trySpans_cons [2] hne (List.mem_cons_self : 1 ∈ [1, 2]) with
      ⟨other, hother, hpassed, -⟩ | ⟨-, hrun⟩
    · rw [hflipped] at hother
      exact absurd (hunique List.mem_cons_self hother hpassed).2 (by decide)
    · rw [hrun]
      exact hfound []

/-- One flipped bit or two adjacent ones are repaired in every frame of up to 4095 bytes; a frame that
is not repaired comes back as it was, and one that is passes with at most two adjacent bits changed. -/
theorem hdlcRepair_correct :
    (∀ payload : List UInt8, payload ≠ [] → payload.length + 2 ≤ 4095 → ∀ span ∈ [1, 2], ∀ place,
      place + span ≤ 8 * (payload.length + 2) →
      hdlcRepair (flipSpan (payload ++ fcsBytes (crc16X25 payload)) place span) =
        .ok (true, payload ++ fcsBytes (crc16X25 payload))) ∧
    ∀ frame : List UInt8, frame ≠ [] → ∃ repaired after,
      hdlcRepair frame = .ok (repaired, after) ∧ (repaired = false → after = frame) ∧
      (repaired = true → hdlcFcsOk after = true ∧ (after = frame ∨ ∃ span ∈ [1, 2], ∃ place,
        place + span ≤ 8 * frame.length ∧ after = flipSpan frame place span)) := by
  constructor
  · intro payload hpayload hlength span hspan place hplace
    have hsum : (payload ++ fcsBytes (crc16X25 payload)).length = payload.length + 2 :=
      List.length_append
    exact hdlcRepair_flipSpan (hdlcFcsOk_fcsBytes hpayload) (hsum ▸ hlength) hspan (hsum ▸ hplace)
  · intro frame hframe
    rw [hdlcRepair]
    cases hok : hdlcFcsOk frame with
    | true => exact ⟨true, frame, rfl, nofun, fun _ ↦ ⟨hok, Or.inl rfl⟩⟩
    | false =>
      rw [if_neg Bool.false_ne_true]
      rcases trySpans_cons [2] hframe (by decide : 1 ∈ [1, 2]) with ⟨place, hplace, hpassed, hrun⟩ | ⟨-, hrun⟩
      · exact ⟨true, _, hrun, nofun, fun _ ↦
          ⟨hpassed, Or.inr ⟨1, by decide, place, hplace, rfl⟩⟩⟩
      · rw [hrun]
        rcases trySpans_cons [] hframe (by decide : 2 ∈ [1, 2]) with
          ⟨place, hplace, hpassed, hrun⟩ | ⟨-, hrun⟩
        · exact ⟨true, _, hrun, nofun, fun _ ↦
            ⟨hpassed, Or.inr ⟨2, by decide, place, hplace, rfl⟩⟩⟩
        · rw [hrun]
          exact ⟨false, frame, rfl, fun _ ↦ rfl, nofun⟩

/-- A frame of one byte with its check. -/
theorem hdlcRepair_correct_byte :
    [0x41] ≠ ([] : List UInt8) ∧
      hdlcRepair (flipSpan ([0x41] ++ fcsBytes (crc16X25 [0x41])) 3 2) =
        .ok (true, [0x41] ++ fcsBytes (crc16X25 [0x41])) :=
  ⟨by decide, hdlcRepair_correct.1 [0x41] (by decide) (by decide) 2 (by decide) 3 (by decide)⟩

end Sdrmm.HdlcRepair
