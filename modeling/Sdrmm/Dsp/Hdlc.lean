import Mathlib.Tactic
import Sdrmm.Lib.Mealy

/-!
# HDLC deframing

The bit-level deframer of `dsp/src/bits.rs`.  One counter of consecutive ones serves destuffing,
flag detection and abort detection: the first six bits of a closing flag have already been
appended to the frame by the time the flag is recognised, and only the alignment test of `close`
undoes that.

The main result is that stuffed payloads separated by flags come out unaltered and in order from
every state of the deframer, and that payloads outside the length bounds are dropped without
disturbing their neighbours.
-/

namespace Sdrmm.Hdlc

/-- The accepted frame lengths; the order is the assertion of `HdlcDeframer::new`. -/
structure Bounds where
  minBytes : ℕ
  maxBytes : ℕ
  ordered : 0 < minBytes ∧ minBytes ≤ maxBytes

structure HdlcDeframer where
  bounds : Bounds
  ones : ℕ
  byte : UInt8
  nbits : ℕ
  frame : List UInt8
  inFrame : Bool
  overflow : Bool

namespace HdlcDeframer

def new (bounds : Bounds) : HdlcDeframer where
  bounds := bounds
  ones := 0
  byte := 0
  nbits := 0
  frame := []
  inFrame := false
  overflow := false

def setOnes (d : HdlcDeframer) (ones : ℕ) : HdlcDeframer := { d with ones := ones }

@[simp]
theorem setOnes_ones (d : HdlcDeframer) (ones : ℕ) : (d.setOnes ones).ones = ones := rfl

@[simp]
theorem setOnes_setOnes (d : HdlcDeframer) (first second : ℕ) :
    (d.setOnes first).setOnes second = d.setOnes second := rfl

def append (d : HdlcDeframer) (bit : Bool) : HdlcDeframer :=
  if !d.inFrame then d
  else
    let byte := d.byte ||| (bit.toUInt8 <<< d.nbits.toUInt8)
    let nbits := d.nbits + 1
    if nbits = 8 then
      if d.frame.length = d.bounds.maxBytes then
        { d with overflow := true, byte := 0, nbits := 0 }
      else
        { d with frame := d.frame ++ [byte], byte := 0, nbits := 0 }
    else
      { d with byte := byte, nbits := nbits }

def discard (d : HdlcDeframer) : HdlcDeframer :=
  { d with frame := [], byte := 0, nbits := 0, overflow := false }

def close (d : HdlcDeframer) : HdlcDeframer × Option (List UInt8) :=
  let aligned := d.nbits = 5 ∨ d.nbits = 6
  let keep := d.inFrame ∧ aligned ∧ !d.overflow ∧
    d.bounds.minBytes ≤ d.frame.length ∧ d.frame.length ≤ d.bounds.maxBytes
  (discard { d.setOnes 0 with inFrame := true }, if keep then some d.frame else none)

def push (d : HdlcDeframer) (bit : Bool) : HdlcDeframer × Option (List UInt8) :=
  if d.ones ≤ 4 then
    (append (d.setOnes (if bit then d.ones + 1 else 0)) bit, none)
  else if d.ones = 5 then
    (d.setOnes (if bit then 6 else 0), none)
  else if d.ones = 6 ∧ !bit then
    close d
  else
    (discard { d.setOnes (if bit then 7 else 0) with inFrame := false }, none)

/-- Feed a bit stream, collecting the frames `push` returns. -/
abbrev deframe (d : HdlcDeframer) (bits : List Bool) : HdlcDeframer × List (List UInt8) :=
  Mealy.run push d bits

end HdlcDeframer

def flag : List Bool := [false, true, true, true, true, true, true, false]

/-- The bits of a byte in transmission order, least significant first. -/
def bitsOf (byte : UInt8) : List Bool :=
  (List.range 8).map fun i ↦ (byte >>> i.toUInt8) &&& 1 == 1

/-- Insert a zero after every fifth consecutive one; `ones` is the run so far. -/
def stuffBits : ℕ → List Bool → List Bool
  | _, [] => []
  | ones, bit :: bits =>
      let ones := if bit then ones + 1 else 0
      if ones = 5 then bit :: false :: stuffBits 0 bits else bit :: stuffBits ones bits

def stuff (payload : List UInt8) : List Bool := stuffBits 0 (payload.flatMap bitsOf)

open HdlcDeframer

/-! ## Appending -/

def appendAll (d : HdlcDeframer) (bits : List Bool) : HdlcDeframer := bits.foldl append d

@[simp]
theorem append_setOnes (d : HdlcDeframer) (ones : ℕ) (bit : Bool) :
    append (d.setOnes ones) bit = (append d bit).setOnes ones := by
  by_cases hframe : d.inFrame <;> by_cases hbyte : d.nbits + 1 = 8 <;>
    by_cases hfull : d.frame.length = d.bounds.maxBytes <;>
    simp [append, setOnes, hframe, hbyte, hfull]

@[simp]
theorem appendAll_setOnes (d : HdlcDeframer) (ones : ℕ) (bits : List Bool) :
    appendAll (d.setOnes ones) bits = (appendAll d bits).setOnes ones := by
  induction bits generalizing d with
  | nil => rfl
  | cons bit bits ih =>
    change appendAll (append (d.setOnes ones) bit) bits = _
    rw [append_setOnes, ih]
    rfl

/-- The run of ones that is open after a stuffed stream. -/
def openRun : ℕ → List Bool → ℕ
  | ones, [] => ones
  | ones, bit :: bits =>
      let ones := if bit then ones + 1 else 0
      openRun (if ones = 5 then 0 else ones) bits

theorem openRun_le (ones : ℕ) (bits : List Bool) (h : ones ≤ 4) : openRun ones bits ≤ 4 := by
  induction bits generalizing ones with
  | nil => exact h
  | cons bit bits ih =>
    apply ih
    split_ifs <;> omega

theorem push_of_le (d : HdlcDeframer) (ones : ℕ) (bit : Bool) (hones : ones ≤ 4) :
    push (d.setOnes ones) bit = ((append d bit).setOnes (if bit then ones + 1 else 0), none) := by
  simp [push, hones]

theorem push_five (d : HdlcDeframer) (bit : Bool) :
    push (d.setOnes 5) bit = (d.setOnes (if bit then 6 else 0), none) := by
  simp [push]

theorem push_six (d : HdlcDeframer) : push (d.setOnes 6) false = close (d.setOnes 6) := by
  simp [push]

/-- Destuffing undoes stuffing: a stuffed stream appends exactly the original bits. -/
theorem deframe_stuffBits (d : HdlcDeframer) (ones : ℕ) (bits : List Bool) (hones : ones ≤ 4) :
    Mealy.run push (d.setOnes ones) (stuffBits ones bits) =
      ((appendAll d bits).setOnes (openRun ones bits), []) := by
  induction bits generalizing d ones with
  | nil => rfl
  | cons bit bits ih =>
    have hpush := push_of_le d ones bit hones
    by_cases hfive : (if bit then ones + 1 else 0) = 5
    · -- the stuffed zero is swallowed with the counter at five
      rw [hfive] at hpush
      have hstuff : stuffBits ones (bit :: bits) = bit :: false :: stuffBits 0 bits := by
        simp [stuffBits, hfive]
      rw [hstuff, Mealy.run_cons_of_silent _ _ hpush,
        Mealy.run_cons_of_silent _ _ (push_five _ false)]
      have h := ih (append d bit) 0 (by omega)
      simpa [appendAll, openRun, hfive] using h
    · have hnext : (if bit then ones + 1 else 0) ≤ 4 := by
        split_ifs at hfive ⊢ <;> omega
      have hstuff : stuffBits ones (bit :: bits) =
          bit :: stuffBits (if bit then ones + 1 else 0) bits := by
        simp [stuffBits, hfive]
      rw [hstuff, Mealy.run_cons_of_silent _ _ hpush]
      have h := ih (append d bit) _ hnext
      simpa [appendAll, openRun, hfive] using h

/-! ## Whole bytes -/

/-- A deframer at a byte boundary inside a frame. -/
structure AtByte (d : HdlcDeframer) : Prop where
  inFrame : d.inFrame = true
  byte : d.byte = 0
  nbits : d.nbits = 0

/-- What one more byte does to the collected frame. -/
def store (d : HdlcDeframer) (byte : UInt8) : HdlcDeframer :=
  if d.frame.length = d.bounds.maxBytes then { d with overflow := true }
  else { d with frame := d.frame ++ [byte] }

theorem append_of_lt (d : HdlcDeframer) (bit : Bool) (hframe : d.inFrame = true)
    (hbits : d.nbits < 7) :
    append d bit = { d with byte := d.byte ||| (bit.toUInt8 <<< d.nbits.toUInt8), nbits := d.nbits + 1 } := by
  have hnot : d.nbits + 1 ≠ 8 := by omega
  simp [append, hframe, hnot]

theorem append_last (d : HdlcDeframer) (bit : Bool) (hframe : d.inFrame = true)
    (hbits : d.nbits = 7) :
    append d bit = { store d (d.byte ||| (bit.toUInt8 <<< 7)) with byte := 0, nbits := 0 } := by
  by_cases hfull : d.frame.length = d.bounds.maxBytes <;>
    simp [append, store, hframe, hbits, hfull]

set_option maxRecDepth 100000 in
theorem bytes_reassemble (byte : UInt8) :
    (List.range 8).foldl (fun acc i ↦
      acc ||| (((byte >>> i.toUInt8) &&& 1 == 1).toUInt8 <<< i.toUInt8)) 0 = byte := by
  have h : ∀ n : Fin 256, (List.range 8).foldl (fun acc i ↦
      acc ||| (((UInt8.ofFin n >>> i.toUInt8) &&& 1 == 1).toUInt8 <<< i.toUInt8)) 0 =
        UInt8.ofFin n := by decide
  exact h byte.toFin

theorem appendAll_bitsOf (d : HdlcDeframer) (byte : UInt8) (h : AtByte d) :
    appendAll d (bitsOf byte) = store d byte := by
  obtain ⟨hframe, hbyte, hnbits⟩ := h
  have hwhole := bytes_reassemble byte
  simp only [appendAll, bitsOf, List.range_succ_eq_map] at hwhole ⊢
  by_cases hfull : d.frame.length = d.bounds.maxBytes
  · simp [append_of_lt, append_last, hframe, hbyte, hnbits, store, hfull]
  · simp [append_of_lt, append_last, hframe, hbyte, hnbits, store, hfull] at hwhole ⊢
    exact hwhole

theorem store_atByte (d : HdlcDeframer) (byte : UInt8) (h : AtByte d) : AtByte (store d byte) := by
  obtain ⟨hframe, hbyte, hnbits⟩ := h
  unfold store
  split_ifs <;> exact ⟨hframe, hbyte, hnbits⟩

theorem appendAll_payload (d : HdlcDeframer) (payload : List UInt8) (h : AtByte d) :
    appendAll d (payload.flatMap bitsOf) = payload.foldl store d := by
  induction payload generalizing d with
  | nil => rfl
  | cons byte payload ih =>
    rw [List.flatMap_cons, appendAll, List.foldl_append]
    change appendAll (appendAll d (bitsOf byte)) _ = _
    rw [appendAll_bitsOf d byte h, ih _ (store_atByte d byte h)]
    rfl

/-- An overlong payload keeps its first `maxBytes` bytes and raises the overflow mark. -/
theorem foldl_store (d : HdlcDeframer) (payload : List UInt8)
    (hroom : d.frame.length ≤ d.bounds.maxBytes) :
    payload.foldl store d =
      { d with
        frame := (d.frame ++ payload).take d.bounds.maxBytes
        overflow := d.overflow || decide (d.bounds.maxBytes < d.frame.length + payload.length) } := by
  induction payload generalizing d with
  | nil =>
    have hnot : ¬ d.bounds.maxBytes < d.frame.length := by omega
    simp [List.take_of_length_le hroom, hnot]
  | cons byte payload ih =>
    rw [List.foldl_cons]
    by_cases hfull : d.frame.length = d.bounds.maxBytes
    · have hstore : store d byte = { d with overflow := true } := by simp [store, hfull]
      rw [hstore, ih { d with overflow := true } hroom]
      simp [← hfull]
    · have hstore : store d byte = { d with frame := d.frame ++ [byte] } := by simp [store, hfull]
      rw [hstore, ih _ (by simp only [List.length_append, List.length_singleton]; omega)]
      simp [Nat.add_assoc, Nat.add_comm 1]

/-! ## Frames between flags -/

/-- The state in which every flag leaves the deframer. -/
def opened (bounds : Bounds) : HdlcDeframer := { new bounds with inFrame := true }

theorem opened_atByte (bounds : Bounds) : AtByte (opened bounds) := ⟨rfl, rfl, rfl⟩

@[simp]
theorem append_bounds (d : HdlcDeframer) (bit : Bool) : (append d bit).bounds = d.bounds := by
  simp only [append]
  split_ifs <;> rfl

@[simp]
theorem appendAll_bounds (d : HdlcDeframer) (bits : List Bool) :
    (appendAll d bits).bounds = d.bounds := by
  induction bits generalizing d with
  | nil => rfl
  | cons bit bits ih => exact (ih _).trans (append_bounds d bit)

@[simp]
theorem close_fst (d : HdlcDeframer) : (close d).1 = opened d.bounds := rfl

@[simp]
theorem setOnes_bounds (d : HdlcDeframer) (ones : ℕ) : (d.setOnes ones).bounds = d.bounds := rfl

@[simp]
theorem close_setOnes_snd (d : HdlcDeframer) (ones : ℕ) : (close (d.setOnes ones)).2 = (close d).2 :=
  rfl

/-- After the leading zero of a flag, five of its ones are appended before it is recognised. -/
theorem deframe_flag_tail (d : HdlcDeframer) :
    Mealy.run push (d.setOnes 0) [true, true, true, true, true, true, false] =
      (opened d.bounds, (close (appendAll d [true, true, true, true, true])).2.toList) := by
  simp [Mealy.run_cons, push_of_le, push_five, push_six, appendAll]

/-- A flag whose leading zero is not taken for a stuffed bit. -/
theorem deframe_flag (d : HdlcDeframer) (ones : ℕ) (hones : ones ≤ 4) :
    Mealy.run push (d.setOnes ones) flag =
      (opened d.bounds, (close (appendAll d [false, true, true, true, true, true])).2.toList) := by
  rw [flag, Mealy.run_cons_of_silent _ _ (push_of_le d ones false hones)]
  have h := deframe_flag_tail (append d false)
  rw [append_bounds] at h
  exact h

/-- Any zero bit ends the run of ones, in whatever state it arrives. -/
theorem push_false_ones (d : HdlcDeframer) :
    (push d false).1.ones = 0 ∧ (push d false).1.bounds = d.bounds := by
  unfold push
  split_ifs <;> simp_all [close, HdlcDeframer.discard]

/-- The first flag synchronises the deframer whatever it was doing. -/
theorem deframe_flag_opens (d : HdlcDeframer) : (Mealy.run push d flag).1 = opened d.bounds := by
  obtain ⟨hones, hbounds⟩ := push_false_ones d
  have hset : (push d false).1 = (push d false).1.setOnes 0 := by
    rw [← hones]
    rfl
  rw [flag, Mealy.run_cons, hset, deframe_flag_tail, hbounds]

/-- The six flag bits that were appended leave a whole number of payload bytes behind. -/
theorem close_appended_flag (d : HdlcDeframer) (h : AtByte d) :
    (close (appendAll d [false, true, true, true, true, true])).2 =
      if d.overflow = false ∧ d.bounds.minBytes ≤ d.frame.length ∧
        d.frame.length ≤ d.bounds.maxBytes then some d.frame else none := by
  obtain ⟨hframe, hbyte, hnbits⟩ := h
  simp [appendAll, append_of_lt, hframe, hnbits, close]

/-- One stuffed payload with its closing flag, from the state in which a flag left the deframer. -/
theorem deframe_payload (bounds : Bounds) (payload : List UInt8) :
    Mealy.run push (opened bounds) (stuff payload ++ flag) =
      (opened bounds,
        if bounds.minBytes ≤ payload.length ∧ payload.length ≤ bounds.maxBytes then [payload]
        else []) := by
  have hdata : Mealy.run push (opened bounds) (stuff payload) =
      ((payload.foldl store (opened bounds)).setOnes (openRun 0 (payload.flatMap bitsOf)), []) := by
    have h := deframe_stuffBits (opened bounds) 0 (payload.flatMap bitsOf) (by omega)
    rw [appendAll_payload _ _ (opened_atByte bounds)] at h
    exact h
  have hstored := foldl_store (opened bounds) payload (Nat.zero_le _)
  have hatByte : AtByte (payload.foldl store (opened bounds)) := by
    rw [hstored]
    exact ⟨rfl, rfl, rfl⟩
  rw [Mealy.run_append, hdata, deframe_flag _ _ (openRun_le _ _ (by omega)),
    close_appended_flag _ hatByte, hstored]
  by_cases hmax : payload.length ≤ bounds.maxBytes
  · have hnot : ¬ bounds.maxBytes < payload.length := by omega
    by_cases hmin : bounds.minBytes ≤ payload.length <;>
      simp [opened, new, List.take_of_length_le hmax, hnot, hmin, hmax]
  · have hover : bounds.maxBytes < payload.length := by omega
    simp [opened, new, hover]

/-- Stuffed payloads separated by flags come out in order and unaltered from every state, exactly
those whose length is accepted, after whatever the first flag closes. -/
theorem deframe_flagged_payloads (d : HdlcDeframer) (payloads : List (List UInt8)) :
    (deframe d (flag ++ payloads.flatMap fun payload ↦ stuff payload ++ flag)).2 =
      (deframe d flag).2 ++ payloads.filter fun payload ↦
        d.bounds.minBytes ≤ payload.length ∧ payload.length ≤ d.bounds.maxBytes := by
  rw [deframe, Mealy.run_append, deframe_flag_opens d]
  apply congrArg ((Mealy.run push d flag).2 ++ ·)
  apply Mealy.run_flatMap_filter push (fun state ↦ state = opened d.bounds)
  · rintro state payload rfl
    rw [deframe_payload d.bounds payload]
    simp
  · rfl

/-! ## Payloads that are not whole bytes -/

/-- A deframer inside a frame to which `count` bits have been appended since the flag. -/
structure Holds (d : HdlcDeframer) (count : ℕ) : Prop where
  inFrame : d.inFrame = true
  nbits : d.nbits = count % 8
  frame : d.frame.length = min (count / 8) d.bounds.maxBytes
  overflow : d.overflow = decide (d.bounds.maxBytes < count / 8)

theorem opened_holds (bounds : Bounds) : Holds (opened bounds) 0 :=
  ⟨rfl, rfl, (Nat.zero_min _).symm, (decide_eq_false (Nat.not_lt_zero _)).symm⟩

theorem Holds.append {d : HdlcDeframer} {count : ℕ} (h : Holds d count) (bit : Bool) :
    Holds (append d bit) (count + 1) := by
  obtain ⟨hframe, hnbits, hlength, hoverflow⟩ := h
  by_cases hlast : d.nbits = 7
  · have hdiv : (count + 1) / 8 = count / 8 + 1 := by omega
    rw [append_last d bit hframe hlast, store]
    by_cases hfull : d.frame.length = d.bounds.maxBytes
    · rw [if_pos hfull]
      refine ⟨hframe, ?_, ?_, ?_⟩
      · change 0 = _
        omega
      · change d.frame.length = min _ d.bounds.maxBytes
        omega
      · exact (decide_eq_true (by change d.bounds.maxBytes < _; omega)).symm
    · rw [if_neg hfull]
      refine ⟨hframe, ?_, ?_, ?_⟩
      · change 0 = _
        omega
      · change (d.frame ++ [_]).length = min _ d.bounds.maxBytes
        rw [List.length_append, List.length_singleton]
        omega
      · change d.overflow = decide (d.bounds.maxBytes < _)
        rw [hoverflow, decide_eq_decide]
        omega
  · have hdiv : (count + 1) / 8 = count / 8 := by omega
    rw [append_of_lt d bit hframe (by omega)]
    refine ⟨hframe, ?_, ?_, ?_⟩
    · change d.nbits + 1 = _
      omega
    · rw [hdiv]
      exact hlength
    · rw [hdiv]
      exact hoverflow

theorem Holds.appendAll {d : HdlcDeframer} {count : ℕ} (h : Holds d count) (bits : List Bool) :
    Holds (appendAll d bits) (count + bits.length) := by
  induction bits generalizing d count with
  | nil => exact h
  | cons bit bits ih =>
    have hrest := ih (h.append bit)
    rw [List.length_cons, Nat.add_comm bits.length 1, ← Nat.add_assoc]
    exact hrest

/-- What a flag closes is decided by the number of bits alone. -/
theorem Holds.close {d : HdlcDeframer} {count : ℕ} (h : Holds d count) :
    (close d).2 = none ↔ ¬((count % 8 = 5 ∨ count % 8 = 6) ∧ d.bounds.minBytes ≤ count / 8 ∧
      count / 8 ≤ d.bounds.maxBytes) := by
  obtain ⟨hframe, hnbits, hlength, hoverflow⟩ := h
  simp only [HdlcDeframer.close, hframe, hnbits, hoverflow, hlength, ite_eq_right_iff,
    reduceCtorEq, imp_false]
  apply not_congr
  by_cases hroom : d.bounds.maxBytes < count / 8
  · simp [hroom]
  · have hmin : min (count / 8) d.bounds.maxBytes = count / 8 := by omega
    simp [hroom, hmin]

/-- Seven bits over a whole number of bytes pass for aligned: the zero of the closing flag
completes the last byte. -/
theorem deframe_misaligned (d : HdlcDeframer) (bits : List Bool) (hbits : ¬8 ∣ bits.length) :
    (deframe (deframe d flag).1 (stuffBits 0 bits ++ flag)).2 = [] ↔
      ¬(bits.length % 8 = 7 ∧ d.bounds.minBytes ≤ bits.length / 8 + 1 ∧
        bits.length / 8 + 1 ≤ d.bounds.maxBytes) := by
  have hdata := deframe_stuffBits (opened d.bounds) 0 bits (by omega)
  have hheld := (opened_holds d.bounds).appendAll (bits ++ [false, true, true, true, true, true])
  have hclose := hheld.close
  rw [appendAll_bounds, Nat.zero_add, List.length_append] at hclose
  have hsplit : appendAll (opened d.bounds) (bits ++ [false, true, true, true, true, true]) =
      appendAll (appendAll (opened d.bounds) bits) [false, true, true, true, true, true] :=
    List.foldl_append
  have hopened : (opened d.bounds).setOnes 0 = opened d.bounds := rfl
  rw [hopened] at hdata
  rw [deframe, deframe, deframe_flag_opens, Mealy.run_append, hdata,
    deframe_flag _ _ (openRun_le _ _ (by omega)), List.nil_append, ← hsplit, Option.toList_eq_nil_iff,
    hclose]
  change ¬((((bits.length + 6) % 8 = 5 ∨ _) ∧ d.bounds.minBytes ≤ _ ∧ _ ≤ d.bounds.maxBytes)) ↔ _
  apply not_congr
  have hdvd : bits.length % 8 ≠ 0 := fun h ↦ hbits (Nat.dvd_of_mod_eq_zero h)
  change ((bits.length + 6) % 8 = 5 ∨ (bits.length + 6) % 8 = 6) ∧
    d.bounds.minBytes ≤ (bits.length + 6) / 8 ∧ (bits.length + 6) / 8 ≤ d.bounds.maxBytes ↔ _
  by_cases hseven : bits.length % 8 = 7
  · have hdiv : (bits.length + 6) / 8 = bits.length / 8 + 1 := by omega
    rw [hdiv]
    constructor
    · rintro ⟨-, hmin, hmax⟩
      exact ⟨hseven, hmin, hmax⟩
    · rintro ⟨-, hmin, hmax⟩
      exact ⟨by omega, hmin, hmax⟩
  · constructor
    · rintro ⟨haligned, -, -⟩
      omega
    · rintro ⟨hmod, -, -⟩
      exact absurd hmod hseven

/-- Nineteen bits are refused. -/
theorem deframe_misaligned_refused :
    (deframe (deframe (new ⟨2, 64, by decide⟩) flag).1
      (stuffBits 0 (List.replicate 19 true) ++ flag)).2 = [] :=
  (deframe_misaligned (new ⟨2, 64, by decide⟩) (List.replicate 19 true) (by decide)).mpr (by decide)

/-- Fifteen bits come out as a frame of two bytes. -/
theorem not_deframe_misaligned_refused :
    ¬8 ∣ (List.replicate 15 false).length ∧
      (deframe (deframe (new ⟨2, 64, by decide⟩) flag).1
        (stuffBits 0 (List.replicate 15 false) ++ flag)).2 = [[0, 0]] := by
  decide

end Sdrmm.Hdlc
