import Sdrmm.Lib.Checked
import Sdrmm.Lib.SortedMap
import Sdrmm.Lib.Text

/-!
# WSPR messages

The 50 bits of a WSPR transmission, from `weak_signal/wspr/message.rs` and `weak_signal/wspr/message/pack.rs`
of `channels/src`: a call with a grid and a power, a call with a prefix or a suffix and a power, or the
hash of a call with a longer grid.

`pack_unpack` is that `unpack` reads within its tables for every payload, and that each message it gives
with the call in full is packed to bits that it unpacks to the same message.
-/

namespace Sdrmm.Wspr

open Sdrmm.Lib.Checked Sdrmm.Text

def callLimit : ℕ := 262177560
def gridLimit : ℕ := 32400
def hashSeed : UInt32 := 146
def hashMask : UInt32 := 0x7fff
def bookLimit : ℕ := 4096
def powers : List ℤ := [0, 3, 7, 10, 13, 17, 20, 23, 27, 30, 33, 37, 40, 43, 47, 50, 53, 57, 60]
def a37 : List UInt8 := bytes "0123456789ABCDEFGHIJKLMNOPQRSTUVWXYZ ".toList

structure Message where
  text : List Char
  callsign : List Char
  grid : Option (List Char)
  powerDbm : ℤ
  deriving DecidableEq

/-- The call is in brackets, whether it is known or not. -/
def Message.IsHashed (message : Message) : Prop := message.callsign.head? = some '<'

/-! ## The hash of a call -/

def rotateLeft (value count : UInt32) : UInt32 := value <<< count ||| value >>> (32 - count)

/-- At most four bytes, the lowest first. -/
def word (codes : List UInt8) : UInt32 :=
  codes.zipIdx.foldl (fun acc (code, index) ↦ acc ||| code.toUInt32 <<< (8 * index.toUInt32)) 0

structure Lanes where
  a : UInt32
  b : UInt32
  c : UInt32

def mix (lanes : Lanes) : Lanes :=
  let ⟨a, b, c⟩ := lanes
  let a := (a - c) ^^^ rotateLeft c 4
  let c := c + b
  let b := (b - a) ^^^ rotateLeft a 6
  let a := a + c
  let c := (c - b) ^^^ rotateLeft b 8
  let b := b + a
  let a := (a - c) ^^^ rotateLeft c 16
  let c := c + b
  let b := (b - a) ^^^ rotateLeft a 19
  let a := a + c
  let c := (c - b) ^^^ rotateLeft b 4
  let b := b + a
  ⟨a, b, c⟩

def finish (lanes : Lanes) : Lanes :=
  let ⟨a, b, c⟩ := lanes
  let c := (c ^^^ b) - rotateLeft b 14
  let a := (a ^^^ c) - rotateLeft c 11
  let b := (b ^^^ a) - rotateLeft a 25
  let c := (c ^^^ b) - rotateLeft b 16
  let a := (a ^^^ c) - rotateLeft c 4
  let b := (b ^^^ a) - rotateLeft a 14
  let c := (c ^^^ b) - rotateLeft b 24
  ⟨a, b, c⟩

/-- The loop over twelve bytes at a time, with the bytes that are left. -/
def lookup3Loop (rest : List UInt8) (lanes : Lanes) : Except Halt (List UInt8 × Lanes) :=
  if _hlong : 12 < rest.length then do
    let first ← slice rest 0 4
    let second ← slice rest 4 8
    let third ← slice rest 8 12
    lookup3Loop (rest.drop 12)
      (mix ⟨lanes.a + word first, lanes.b + word second, lanes.c + word third⟩)
  else .ok (rest, lanes)
termination_by rest.length
decreasing_by
  rw [List.length_drop]
  omega

def lookup3 (key : List UInt8) (seed : UInt32) : Except Halt UInt32 := do
  let start := 0xdeadbeef + key.length.toUInt32 + seed
  let (rest, lanes) ← lookup3Loop key ⟨start, start, start⟩
  if rest = [] then .ok lanes.c
  else do
    let first ← slice rest 0 (min rest.length 4)
    let second ← if 4 < rest.length then slice rest 4 (min rest.length 8) else .ok []
    let third ← if 8 < rest.length then slice rest 8 rest.length else .ok []
    .ok (finish ⟨lanes.a + word first, lanes.b + word second, lanes.c + word third⟩).c

def hash (call : List Char) : Except Halt ℕ :=
  (lookup3 (bytes call) hashSeed).map fun value ↦ (value &&& hashMask).toNat

/-! ## The calls heard before -/

structure CallBook where
  calls : SortedMap ℕ (List Char)

namespace CallBook

def empty : CallBook := ⟨SortedMap.empty⟩

def remember (book : CallBook) (call : List Char) : Except Halt CallBook := do
  let calls := if bookLimit ≤ book.calls.entries.length then SortedMap.empty else book.calls
  let key ← hash call
  .ok ⟨calls.insert key call⟩

def lookup (book : CallBook) (hash : ℕ) : List Char :=
  match book.calls.get? hash with
  | some call => '<' :: (call ++ ['>'])
  | none => "<...>".toList

end CallBook

/-! ## Unpacking -/

def call6 (value : ℕ) : Except Halt (List Char) :=
  if callLimit ≤ value then .error .failed
  else do
    let fifth ← index a37 (value % 27 + 10)
    let value := value / 27
    let fourth ← index a37 (value % 27 + 10)
    let value := value / 27
    let third ← index a37 (value % 27 + 10)
    let value := value / 27
    let second ← index a37 (value % 10)
    let value := value / 10
    let first ← index a37 (value % 36)
    let value := value / 36
    let zeroth ← index a37 value
    let trimmed := trim (ofAscii [zeroth, first, second, third, fourth, fifth])
    if ' ' ∉ trimmed ∧ 3 ≤ (bytes trimmed).length then .ok trimmed else .error .failed

def grid4 (value : ℕ) : Except Halt (List Char) :=
  if gridLimit ≤ value then .error .failed
  else do
    let longitude ← sub 179 (value / 180)
    let latitude := value % 180
    .ok (Char.ofNat (65 + longitude / 10) :: Char.ofNat (65 + latitude / 10) ::
      (decimal (longitude % 10 : ℕ) ++ decimal (latitude % 10 : ℕ)))

def isField (code : UInt8) : Bool := 65 ≤ code && code ≤ 82

def isSquare (code : UInt8) : Bool := 65 ≤ code && code ≤ 88

/-- A message with the hash of a call; the call that was sent is the grid with its first letter last. -/
def hashed (call : List Char) (hash : ℕ) (powerDbm : ℤ) (book : CallBook) : Except Halt Message :=
  if (bytes call).length ≠ 6 ∨ powerDbm ∉ powers then .error .failed
  else do
    let (before, after) ← orPanic (splitAt call 5)
    let grid := after ++ before
    let locator := bytes grid
    let l0 ← index locator 0
    let l1 ← index locator 1
    let l2 ← index locator 2
    let l3 ← index locator 3
    let l4 ← index locator 4
    let l5 ← index locator 5
    if isField l0 && isField l1 && isAsciiDigit l2 && isAsciiDigit l3 && isSquare l4 && isSquare l5 then
      let callsign := book.lookup hash
      .ok {
        text := callsign ++ ' ' :: (grid ++ ' ' :: decimal powerDbm)
        callsign := callsign
        grid := some grid
        powerDbm := powerDbm }
    else .error .failed

def withAffix (call : List Char) (value : ℕ) : Except Halt (List Char) :=
  if value < 60000 then do
    let last ← index a37 (value % 37)
    let rest := value / 37
    let middle ← index a37 (rest % 37)
    let rest := rest / 37
    let first ← index a37 (rest % 37)
    let affix := trimStart (ofAscii [first, middle, last])
    if affix ≠ [] ∧ ' ' ∉ affix then .ok (affix ++ '/' :: call) else .error .failed
  else
    let suffix := value - 60000
    if suffix ≤ 9 then .ok (call ++ '/' :: decimal suffix)
    else if suffix ≤ 35 then .ok (call ++ ['/', Char.ofNat (65 + (suffix - 10))])
    else if suffix ≤ 125 then .ok (call ++ '/' :: List.leftpad 2 '0' (decimal (suffix - 26 : ℕ)))
    else .error .failed

/-- How much the power is raised to tell apart the affixes from 32768 on. -/
def extraOf (unit : ℤ) : Option ℤ :=
  if unit = 1 ∨ unit = 2 then some unit
  else if 4 ≤ unit ∧ unit ≤ 6 then some (unit - 3)
  else if unit = 8 ∨ unit = 9 then some (unit - 7)
  else none

def compound (call : List Char) (affix : ℕ) (kind : ℤ) (book : CallBook) :
    Except Halt (Message × CallBook) :=
  if kind < 0 ∨ 62 < kind then .error .failed
  else do
    let extra ← orFail (extraOf (kind % 10))
    let powerDbm := kind - extra
    let above ← sub extra.toNat 1
    let callsign ← withAffix call (affix + 32768 * above)
    let book ← book.remember callsign
    .ok ({
      text := callsign ++ ' ' :: decimal powerDbm
      callsign := callsign
      grid := none
      powerDbm := powerDbm }, book)

/-- The message of a payload and the book with the call that was heard. -/
def unpack (bits : ℕ) (book : CallBook) : Except Halt (Message × CallBook) := do
  let callValue := bits / 2 ^ 22 % 2 ^ 32
  let rest := bits % 2 ^ 22
  let kind : ℤ := (rest % 128 : ℕ) - 64
  let call ← call6 callValue
  if kind < 0 then do
    let message ← hashed call (rest / 128) (-(kind + 1)) book
    .ok (message, book)
  else if kind ∈ powers then do
    let grid ← grid4 (rest / 128)
    let book ← book.remember call
    .ok ({
      text := call ++ ' ' :: (grid ++ ' ' :: decimal kind)
      callsign := call
      grid := some grid
      powerDbm := kind }, book)
  else compound call (rest / 128) kind book

/-! ## Packing -/

def code (byte : UInt8) : Option ℕ := a37.idxOf? byte

/-- A call with the digit of its area at the third place, which leaves out no character. -/
def aligned (call : List Char) : Option (List Char) :=
  let codes := bytes call
  if 3 ≤ codes.length ∧ codes[2]?.any isAsciiDigit then some (List.rightpad 6 ' ' call)
  else if 2 ≤ codes.length ∧ codes[1]?.any isAsciiDigit then some (' ' :: List.rightpad 5 ' ' call)
  else none

def packCall (call : List Char) : Option ℕ := do
  match bytes (← aligned call) with
  | [c0, c1, c2, c3, c4, c5] =>
      let value ← code c0
      let value := value * 36 + (← (code c1).filter (· < 36))
      let value := value * 10 + (← (code c2).filter (· < 10))
      let value := value * 27 + (← (code c3).filter (10 ≤ ·)) - 10
      let value := value * 27 + (← (code c4).filter (10 ≤ ·)) - 10
      some (value * 27 + (← (code c5).filter (10 ≤ ·)) - 10)
  | _ => none

def field (code : UInt8) : Option ℕ := if isField code then some (code.toNat - 65) else none

def digit (code : UInt8) : Option ℕ := if isAsciiDigit code then some (code.toNat - 48) else none

def packGrid (grid : List Char) : Option ℕ := do
  match bytes grid with
  | [b0, b1, b2, b3] =>
      let longitude := 179 - 10 * (← field b0) - (← digit b2)
      let latitude := 10 * (← field b1) + (← digit b3)
      some (longitude * 180 + latitude)
  | _ => none

/-- The call without its affix, and the number of the affix.  The number of a long prefix wraps. -/
def splitAffix (call : List Char) : Option (List Char × ℕ) := do
  let (left, right) ← splitOnce '/' call
  if (bytes right).length ≤ 2 ∧ (bytes right).length < (bytes left).length then
    match bytes right with
    | [only] =>
        if isAsciiDigit only then some (left, 60000 + (only.toNat - 48))
        else if isAsciiUppercase only then some (left, 60000 + (only.toNat - 65 + 10))
        else none
    | [tens, ones] =>
        if isAsciiDigit tens && isAsciiDigit ones then
          some (left, 60000 + ((tens.toNat - 48) * 10 + (ones.toNat - 48) + 26))
        else none
    | _ => none
  else
    let value ← (bytes (List.leftpad 3 ' ' left)).foldlM
      (fun acc byte ↦ (code byte).map fun index ↦ (acc * 37 + index) % 2 ^ 32) 0
    some (right, value)

def pack (text : List Char) : Except Halt ℕ :=
  match splitWhitespace text with
  | [call, grid, power] =>
      if call.head? ≠ some '<' then do
        let power ← orFail (parseI32 power)
        if power ∉ powers then .error .failed
        else do
          let call ← orFail (packCall call)
          let grid ← orFail (packGrid grid)
          .ok (call * 2 ^ 22 ||| (grid * 2 ^ 7 ||| (power + 64).toNat))
      else do
        let call ← orFail ((call.tail.getLast?).bind fun last ↦
          if last = '>' then some call.tail.dropLast else none)
        let power ← orFail (parseI32 power)
        if (bytes grid).length ≠ 6 ∨ power ∉ powers then .error .failed
        else do
          let (before, after) ← orPanic (splitAt grid 1)
          let rotated ← orFail (packCall (after ++ before))
          let hash ← hash call
          .ok (rotated * 2 ^ 22 ||| (hash * 2 ^ 7 ||| (64 - power - 1).toNat))
  | [call, power] => do
      let power ← orFail (parseI32 power)
      let (base, affix) ← orFail (splitAffix call)
      let extra := affix / 32768 + 1
      let call ← orFail (packCall base)
      .ok (call * 2 ^ 22 ||| (affix % 32768 * 2 ^ 7 ||| ((power + extra + 64) % 2 ^ 32).toNat))
  | _ => .error .failed

/-! ## Letters -/

/-- The letter of a number. -/
def letter (i : ℕ) : UInt8 := a37.getD i 0

def glyph (i : ℕ) : Char := Char.ofNat (letter i).toNat

theorem index_a37 {i : ℕ} (hi : i < 37) : index a37 i = .ok (letter i) := index_of_lt hi 0

theorem code_letter : ∀ i < 37, code (letter i) = some i := by decide

theorem letter_lt : ∀ i < 37, (letter i).toNat < 128 := by decide

theorem isAsciiDigit_letter : ∀ i < 37, isAsciiDigit (letter i) = decide (i < 10) := by decide

theorem isWhitespace_glyph : ∀ i < 37, isWhitespace (glyph i) = decide (i = 36) := by decide

theorem glyph_ne : ∀ i < 37, glyph i ≠ '/' ∧ glyph i ≠ '<' := by decide

theorem bytes_glyphs {places : List ℕ} (hplaces : ∀ i ∈ places, i < 37) :
    bytes (places.map glyph) = places.map letter := by
  have hascii : ∀ byte ∈ places.map letter, byte.toNat < 128 := by
    intro byte hbyte
    obtain ⟨i, hi, rfl⟩ := List.mem_map.mp hbyte
    exact letter_lt i (hplaces i hi)
  have hbytes := bytes_ofAscii hascii
  rw [ofAscii, List.map_map] at hbytes
  exact hbytes

theorem length_bytes_glyphs {text : List Char} (htext : ∀ c ∈ text, ∃ i < 36, c = glyph i) :
    (bytes text).length = text.length := by
  induction text with
  | nil => rfl
  | cons c text ih =>
    rw [List.forall_mem_cons] at htext
    obtain ⟨⟨i, hi, rfl⟩, hrest⟩ := htext
    have hsingle : bytes [glyph i] = [letter i] :=
      bytes_glyphs (List.forall_mem_singleton.mpr (Nat.lt_trans hi (by decide)))
    have hsplit : bytes (glyph i :: text) = bytes [glyph i] ++ bytes text := bytes_append [glyph i] text
    rw [hsplit, hsingle, List.length_append, ih hrest, List.length_singleton, List.length_cons,
      Nat.add_comm]

/-! ## Calls -/

section Call

variable {i0 i1 i2 i3 i4 i5 : ℕ}

/-- What the places of a call hold. -/
structure CallPlaces (i0 i1 i2 i3 i4 i5 : ℕ) : Prop where
  zeroth : i0 < 37
  first : i1 < 36
  second : i2 < 10
  third : 10 ≤ i3 ∧ i3 < 37
  fourth : 10 ≤ i4 ∧ i4 < 37
  fifth : 10 ≤ i5 ∧ i5 < 37

theorem CallPlaces.lt (hplaces : CallPlaces i0 i1 i2 i3 i4 i5) :
    ∀ i ∈ [i0, i1, i2, i3, i4, i5], i < 37 := by
  obtain ⟨h0, h1, h2, h3, h4, h5⟩ := hplaces
  simp only [List.forall_mem_cons]
  refine ⟨h0, by omega, by omega, h3.2, h4.2, h5.2, List.forall_mem_nil _⟩

/-- A call without a space inside is its places without the spaces around. -/
theorem trim_call (hplaces : CallPlaces i0 i1 i2 i3 i4 i5)
    (hspace : ' ' ∉ trim ([i0, i1, i2, i3, i4, i5].map glyph)) :
    ∃ area : List ℕ, (∀ i ∈ area, 10 ≤ i ∧ i < 36) ∧
      [i3, i4, i5] = area ++ List.replicate (3 - area.length) 36 ∧
      trim ([i0, i1, i2, i3, i4, i5].map glyph) =
        ((if i0 = 36 then [] else [i0]) ++ i1 :: i2 :: area).map glyph := by
  obtain ⟨h0, h1, h2, h3, h4, h5⟩ := hplaces
  have hfirst : isWhitespace (glyph i1) = false := by
    rw [isWhitespace_glyph i1 (by omega), decide_eq_false (by omega)]
  have hsecond : isWhitespace (glyph i2) = false := by
    rw [isWhitespace_glyph i2 (by omega), decide_eq_false (by omega)]
  have hstart : trimStart ([i0, i1, i2, i3, i4, i5].map glyph) =
      ((if i0 = 36 then [] else [i0]) ++ [i1, i2, i3, i4, i5]).map glyph := by
    rw [List.map_cons, trimStart_cons, isWhitespace_glyph i0 h0]
    by_cases hzeroth : i0 = 36
    · rw [if_pos hzeroth, decide_eq_true hzeroth, if_pos rfl, List.map_cons, trimStart_cons, hfirst]
      rfl
    · rw [if_neg hzeroth, decide_eq_false hzeroth]
      rfl
  rw [trim, hstart] at hspace ⊢
  generalize (if i0 = 36 then [] else [i0]) = head at hspace ⊢
  -- the last places from the end on
  have hdrop (places : List ℕ) (i : ℕ) (hi : i < 37) : trimEnd ((places ++ [i]).map glyph) =
      if i = 36 then trimEnd (places.map glyph) else (places ++ [i]).map glyph := by
    rw [List.map_append, List.map_singleton, trimEnd_append, isWhitespace_glyph i hi]
    simp only [decide_eq_true_eq]
  have hnotin (places : List ℕ) (h : ' ' ∉ places.map glyph) (i : ℕ) (hi : i ∈ places) (hlt : i < 37) :
      i ≠ 36 := by
    rintro rfl
    exact h (List.mem_map.mpr ⟨36, hi, rfl⟩)
  have hsplit5 : head ++ [i1, i2, i3, i4, i5] = head ++ [i1, i2, i3, i4] ++ [i5] := by simp
  have hsplit4 : head ++ [i1, i2, i3, i4] = head ++ [i1, i2, i3] ++ [i4] := by simp
  have hsplit3 : head ++ [i1, i2, i3] = head ++ [i1, i2] ++ [i3] := by simp
  have hsplit2 : head ++ [i1, i2] = head ++ [i1] ++ [i2] := by simp
  rw [hsplit5, hdrop _ i5 h5.2] at hspace ⊢
  by_cases hfifth : i5 = 36
  · rw [if_pos hfifth, hsplit4, hdrop _ i4 h4.2] at hspace ⊢
    by_cases hfourth : i4 = 36
    · rw [if_pos hfourth, hsplit3, hdrop _ i3 h3.2] at hspace ⊢
      by_cases hthird : i3 = 36
      · refine ⟨[], List.forall_mem_nil _, by rw [hthird, hfourth, hfifth]; rfl, ?_⟩
        have hlast : trimEnd ((head ++ [i1] ++ [i2]).map glyph) = (head ++ [i1] ++ [i2]).map glyph := by
          rw [hdrop _ i2 (by omega), if_neg (by omega)]
        rw [if_pos hthird, hsplit2]
        exact hlast.trans (congrArg _ (by simp))
      · refine ⟨[i3], by simp; omega, by rw [hfourth, hfifth]; rfl, ?_⟩
        rw [if_neg hthird]
        exact congrArg _ (by simp)
    · rw [if_neg hfourth] at hspace ⊢
      have hthird := hnotin _ hspace i3 (by simp) h3.2
      refine ⟨[i3, i4], by simp; omega, by rw [hfifth]; rfl, ?_⟩
      simp
  · rw [if_neg hfifth] at hspace ⊢
    have hthird := hnotin _ hspace i3 (by simp) h3.2
    have hfourth := hnotin _ hspace i4 (by simp) h4.2
    refine ⟨[i3, i4, i5], by simp; omega, rfl, ?_⟩
    simp

/-- A call that was trimmed is aligned to its places again. -/
theorem packCall_trim (hplaces : CallPlaces i0 i1 i2 i3 i4 i5)
    (hspace : ' ' ∉ trim ([i0, i1, i2, i3, i4, i5].map glyph))
    (hlength : 3 ≤ (bytes (trim ([i0, i1, i2, i3, i4, i5].map glyph))).length) :
    packCall (trim ([i0, i1, i2, i3, i4, i5].map glyph)) =
      some (((((i0 * 36 + i1) * 10 + i2) * 27 + i3 - 10) * 27 + i4 - 10) * 27 + i5 - 10) := by
  obtain ⟨area, harea, htail, htrim⟩ := trim_call hplaces hspace
  have hall := hplaces.lt
  obtain ⟨h0, h1, h2, h3, h4, h5⟩ := hplaces
  have hcore : ∀ i ∈ (if i0 = 36 then [] else [i0]) ++ i1 :: i2 :: area, i < 37 := by
    intro i hi
    rcases List.mem_append.mp hi with hhead | htail
    · split_ifs at hhead
      · exact absurd hhead List.not_mem_nil
      · rw [List.eq_of_mem_singleton hhead]
        exact h0
    · simp only [List.mem_cons] at htail
      rcases htail with rfl | rfl | hmem
      · omega
      · omega
      · exact Nat.lt_trans (harea i hmem).2 (by omega)
  have haligned : aligned (trim ([i0, i1, i2, i3, i4, i5].map glyph)) =
      some ([i0, i1, i2, i3, i4, i5].map glyph) := by
    have hpad : [i3, i4, i5].map glyph = area.map glyph ++ List.replicate (3 - area.length) ' ' := by
      rw [htail, List.map_append, List.map_replicate]
      rfl
    have hpadded (head : List ℕ) : List.rightpad (head.length + 3) ' ' ((head ++ area).map glyph) =
        (head ++ [i3, i4, i5]).map glyph := by
      have hmissing : head.length + 3 - ((head ++ area).map glyph).length = 3 - area.length := by
        rw [List.length_map, List.length_append]
        omega
      rw [List.rightpad, hmissing, List.map_append, List.map_append, hpad, List.append_assoc]
    have hdigit : isAsciiDigit (letter i2) = true := by
      rw [isAsciiDigit_letter i2 (by omega), decide_eq_true h2]
    rw [htrim, bytes_glyphs hcore, List.length_map] at hlength
    rw [htrim, aligned, bytes_glyphs hcore]
    by_cases hzeroth : i0 = 36
    · rw [if_pos hzeroth] at hlength ⊢
      cases area with
      | nil => exact absurd hlength (by simp)
      | cons third area =>
        have hthird := harea third List.mem_cons_self
        have hletter : isAsciiDigit (letter third) = false := by
          rw [isAsciiDigit_letter third (by omega), decide_eq_false (by omega)]
        have hsecond : (([] ++ i1 :: i2 :: third :: area).map letter)[2]?.any isAsciiDigit = false :=
          hletter
        have hfirst : (([] ++ i1 :: i2 :: third :: area).map letter)[1]?.any isAsciiDigit = true :=
          hdigit
        have hlong : 2 ≤ (([] ++ i1 :: i2 :: third :: area).map letter).length := by simp
        rw [hsecond, hfirst]
        simp only [Bool.false_eq_true, and_false, if_false, hlong, and_self, if_true]
        rw [hzeroth]
        exact congrArg (fun text ↦ some (' ' :: text)) (hpadded [i1, i2])
    · rw [if_neg hzeroth] at hlength ⊢
      have hsecond : (([i0] ++ i1 :: i2 :: area).map letter)[2]?.any isAsciiDigit = true := hdigit
      have hlong : 3 ≤ (([i0] ++ i1 :: i2 :: area).map letter).length := by simp
      rw [hsecond]
      simp only [hlong, and_self, if_true]
      exact congrArg some (hpadded [i0, i1, i2])
  rw [packCall, haligned, Option.bind_eq_bind, Option.bind_some, bytes_glyphs hall]
  simp only [List.map_cons, List.map_nil, code_letter i0 h0, code_letter i1 (by omega),
    code_letter i2 (by omega), code_letter i3 h3.2, code_letter i4 h4.2, code_letter i5 h5.2]
  have hbelow (i bound : ℕ) (hi : i < bound) : (some i).filter (fun i ↦ decide (i < bound)) = some i := by
    rw [Option.filter_some, decide_eq_true hi]
    rfl
  have habove (i : ℕ) (hi : 10 ≤ i) : (some i).filter (fun i ↦ decide (10 ≤ i)) = some i := by
    rw [Option.filter_some, decide_eq_true hi]
    rfl
  rw [hbelow i1 36 h1, hbelow i2 10 h2, habove i3 h3.1, habove i4 h4.1, habove i5 h5.1]
  rfl

end Call

theorem callPlaces_of_lt {value : ℕ} (hvalue : value < callLimit) :
    CallPlaces (value / 27 / 27 / 27 / 10 / 36) (value / 27 / 27 / 27 / 10 % 36)
      (value / 27 / 27 / 27 % 10) (value / 27 / 27 % 27 + 10) (value / 27 % 27 + 10)
      (value % 27 + 10) := by
  rw [callLimit] at hvalue
  constructor <;> omega

/-- The six letters of a call with the spaces around. -/
def callText (value : ℕ) : List Char :=
  [value / 27 / 27 / 27 / 10 / 36, value / 27 / 27 / 27 / 10 % 36, value / 27 / 27 / 27 % 10,
    value / 27 / 27 % 27 + 10, value / 27 % 27 + 10, value % 27 + 10].map glyph

theorem call6_of_lt {value : ℕ} (hvalue : value < callLimit) :
    call6 value = if ' ' ∉ trim (callText value) ∧ 3 ≤ (bytes (trim (callText value))).length then
      .ok (trim (callText value)) else .error .failed := by
  obtain ⟨h0, h1, h2, h3, h4, h5⟩ := callPlaces_of_lt hvalue
  have hsecond := index_a37 (Nat.lt_trans h2 (by decide : 10 < 37))
  have hfirst := index_a37 (Nat.lt_trans h1 (by decide : 36 < 37))
  rw [call6, if_neg (not_le.mpr hvalue)]
  simp only [index_a37 h5.2, index_a37 h4.2, index_a37 h3.2, hsecond, hfirst, index_a37 h0, ok_bind]
  rfl

theorem call6_no_panic (value : ℕ) : call6 value ≠ .error .panic := by
  by_cases hvalue : value < callLimit
  · rw [call6_of_lt hvalue]
    split_ifs
    · exact nofun
    · exact nofun
  · rw [call6, if_pos (not_lt.mp hvalue)]
    exact nofun

/-- What a call in full looks like. -/
structure IsCall (call : List Char) : Prop where
  glyphs : ∀ c ∈ call, ∃ i < 36, c = glyph i
  long : 3 ≤ call.length

theorem call6_spec {value : ℕ} {call : List Char} (hcall : call6 value = .ok call) :
    IsCall call ∧ packCall call = some value := by
  have hvalue : value < callLimit := by
    by_contra hge
    rw [call6, if_pos (not_lt.mp hge)] at hcall
    exact nomatch hcall
  rw [call6_of_lt hvalue] at hcall
  split_ifs at hcall with hgood
  obtain rfl := Except.ok.inj hcall
  have hplaces := callPlaces_of_lt hvalue
  have hpack := packCall_trim hplaces hgood.1 hgood.2
  obtain ⟨area, harea, _, htrim⟩ := trim_call hplaces hgood.1
  have hletters : ∀ c ∈ trim (callText value), ∃ i < 36, c = glyph i := by
    intro c hc
    rw [callText, htrim] at hc
    obtain ⟨i, hi, rfl⟩ := List.mem_map.mp hc
    refine ⟨i, ?_, rfl⟩
    rcases List.mem_append.mp hi with hhead | htail
    · split_ifs at hhead with hzeroth
      · exact absurd hhead List.not_mem_nil
      · rw [List.eq_of_mem_singleton hhead]
        have hlt := hplaces.zeroth
        omega
    · simp only [List.mem_cons] at htail
      rcases htail with rfl | rfl | hmem
      · exact hplaces.first
      · exact Nat.lt_trans hplaces.second (by decide)
      · exact (harea i hmem).2
  refine ⟨⟨hletters, ?_⟩, hpack.trans ?_⟩
  · rw [← length_bytes_glyphs hletters]
    exact hgood.2
  · congr 1
    have hlow := hplaces.fifth.1
    omega

/-! ## The book -/

theorem lookup3Loop_ok (rest : List UInt8) (lanes : Lanes) :
    ∃ rest' lanes', lookup3Loop rest lanes = .ok (rest', lanes') ∧ rest'.length ≤ 12 := by
  induction rest, lanes using lookup3Loop.induct with
  | case1 rest lanes hlong ih =>
    rw [lookup3Loop, dif_pos hlong, slice_of_le (by decide) (by omega), ok_bind,
      slice_of_le (by decide) (by omega), ok_bind, slice_of_le (by decide) (by omega), ok_bind]
    exact ih _ _ _
  | case2 rest lanes hshort =>
    rw [lookup3Loop, dif_neg hshort]
    exact ⟨rest, lanes, rfl, not_lt.mp hshort⟩

theorem hash_ok (call : List Char) : ∃ value, hash call = .ok value := by
  have hlookup : ∃ value, lookup3 (bytes call) hashSeed = .ok value := by
    obtain ⟨rest, lanes, hloop, hshort⟩ := lookup3Loop_ok (bytes call)
      ⟨0xdeadbeef + (bytes call).length.toUInt32 + hashSeed,
        0xdeadbeef + (bytes call).length.toUInt32 + hashSeed,
        0xdeadbeef + (bytes call).length.toUInt32 + hashSeed⟩
    simp only [lookup3, hloop, ok_bind]
    by_cases hempty : rest = []
    · rw [if_pos hempty]
      exact ⟨_, rfl⟩
    · rw [if_neg hempty, slice_of_le (Nat.zero_le _) (min_le_left _ _), ok_bind]
      by_cases hfour : 4 < rest.length
      · rw [if_pos hfour, slice_of_le (by omega) (min_le_left _ _), ok_bind]
        by_cases height : 8 < rest.length
        · rw [if_pos height, slice_of_le height.le le_rfl]
          exact ⟨_, rfl⟩
        · rw [if_neg height]
          exact ⟨_, rfl⟩
      · rw [if_neg hfour, if_neg (by omega)]
        exact ⟨_, rfl⟩
  obtain ⟨value, hvalue⟩ := hlookup
  rw [hash, hvalue]
  exact ⟨_, rfl⟩

theorem remember_ok (book : CallBook) (call : List Char) : ∃ next, book.remember call = .ok next := by
  obtain ⟨key, hkey⟩ := hash_ok call
  rw [CallBook.remember, hkey]
  exact ⟨_, rfl⟩

/-! ## Grids and powers -/

theorem decimal_digit : ∀ n < 10, decimal (n : ℕ) = ofAscii [UInt8.ofNat (48 + n)] := by decide

theorem field_letter : ∀ i < 18, field (UInt8.ofNat (65 + i)) = some i := by decide

theorem digit_letter : ∀ i < 10, digit (UInt8.ofNat (48 + i)) = some i := by decide

theorem isWhitespace_of_all {text : List Char} (hall : text.all (fun c ↦ isWhitespace c = false) = true) :
    ∀ c ∈ text, isWhitespace c = false :=
  fun c hc ↦ of_decide_eq_true (List.all_eq_true.mp hall c hc)

/-- Numbers of a message go through their decimal digits. -/
theorem power_text : ∀ power ∈ powers, parseI32 (decimal power) = some power ∧ decimal power ≠ [] ∧
    (decimal power).all (fun c ↦ isWhitespace c = false) = true := by decide

theorem grid4_of_lt {value : ℕ} (hvalue : value < gridLimit) :
    grid4 value = .ok (ofAscii [UInt8.ofNat (65 + (179 - value / 180) / 10),
      UInt8.ofNat (65 + value % 180 / 10), UInt8.ofNat (48 + (179 - value / 180) % 10),
      UInt8.ofNat (48 + value % 180 % 10)]) := by
  have hletter : ∀ i < 18, Char.ofNat (65 + i) = Char.ofNat (UInt8.ofNat (65 + i)).toNat := by decide
  rw [grid4, if_neg (not_le.mpr hvalue)]
  rw [gridLimit] at hvalue
  rw [sub_of_le (by omega), ok_bind]
  simp only [decimal_digit _ (Nat.mod_lt _ (by decide : 0 < 10))]
  rw [hletter _ (by omega), hletter _ (by omega)]
  rfl

theorem grid4_no_panic (value : ℕ) : grid4 value ≠ .error .panic := by
  by_cases hvalue : value < gridLimit
  · rw [grid4_of_lt hvalue]
    exact nofun
  · rw [grid4, if_pos (not_lt.mp hvalue)]
    exact nofun

theorem grid4_spec {value : ℕ} {grid : List Char} (hgrid : grid4 value = .ok grid) :
    packGrid grid = some value ∧ grid ≠ [] ∧ ∀ c ∈ grid, isWhitespace c = false := by
  have hvalue : value < gridLimit := by
    by_contra hge
    rw [grid4, if_pos (not_lt.mp hge)] at hgrid
    exact nomatch hgrid
  rw [grid4_of_lt hvalue] at hgrid
  rw [gridLimit] at hvalue
  obtain rfl := Except.ok.inj hgrid
  have hfield : ∀ i < 18, (UInt8.ofNat (65 + i)).toNat < 128 ∧
      isWhitespace (Char.ofNat (UInt8.ofNat (65 + i)).toNat) = false := by decide
  have hdigit : ∀ i < 10, (UInt8.ofNat (48 + i)).toNat < 128 ∧
      isWhitespace (Char.ofNat (UInt8.ofNat (48 + i)).toNat) = false := by decide
  have h0 := hfield ((179 - value / 180) / 10) (by omega)
  have h1 := hfield (value % 180 / 10) (by omega)
  have h2 := hdigit ((179 - value / 180) % 10) (by omega)
  have h3 := hdigit (value % 180 % 10) (by omega)
  refine ⟨?_, List.cons_ne_nil _ _, ?_⟩
  · rw [packGrid, bytes_ofAscii (by simp only [List.forall_mem_cons]; exact
      ⟨h0.1, h1.1, h2.1, h3.1, List.forall_mem_nil _⟩)]
    simp only [field_letter _ (by omega : (179 - value / 180) / 10 < 18),
      field_letter _ (by omega : value % 180 / 10 < 18),
      digit_letter _ (by omega : (179 - value / 180) % 10 < 10),
      digit_letter _ (by omega : value % 180 % 10 < 10)]
    apply congrArg some
    omega
  · simp only [ofAscii, List.map_cons, List.map_nil, List.forall_mem_cons]
    exact ⟨h0.2, h1.2, h2.2, h3.2, List.forall_mem_nil _⟩

/-! ## Affixes -/

theorem withAffix_no_panic (call : List Char) (value : ℕ) : withAffix call value ≠ .error .panic := by
  have hmod (n : ℕ) : n % 37 < 37 := Nat.mod_lt n (by decide)
  rw [withAffix]
  by_cases hprefix : value < 60000
  · rw [if_pos hprefix]
    simp only [index_a37 (hmod _), ok_bind]
    split_ifs <;> exact nofun
  · rw [if_neg hprefix]
    simp only []
    split_ifs <;> exact nofun

theorem IsCall.notin {call : List Char} (hcall : IsCall call) : '/' ∉ call := by
  intro hmem
  obtain ⟨i, hi, heq⟩ := hcall.glyphs _ hmem
  exact (glyph_ne i (Nat.lt_trans hi (by decide))).1 heq.symm

theorem IsCall.bytes_long {call : List Char} (hcall : IsCall call) : 3 ≤ (bytes call).length := by
  rw [length_bytes_glyphs hcall.glyphs]
  exact hcall.long

/-- A text of letters can stand as a word. -/
theorem isWhitespace_of_glyphs {text : List Char} (htext : ∀ c ∈ text, ∃ i < 36, c = glyph i) :
    ∀ c ∈ text, isWhitespace c = false := by
  intro c hc
  obtain ⟨i, hi, rfl⟩ := htext c hc
  rw [isWhitespace_glyph i (by omega), decide_eq_false (by omega)]

section Prefix

variable {i0 i1 i2 : ℕ}

/-- The letters in front of a call without the spaces before them. -/
theorem trimStart_affix (h0 : i0 < 37) (h1 : i1 < 37) (h2 : i2 < 37)
    (hne : trimStart ([i0, i1, i2].map glyph) ≠ [])
    (hspace : ' ' ∉ trimStart ([i0, i1, i2].map glyph)) :
    ∃ core : List ℕ, (∀ i ∈ core, i < 36) ∧ core ≠ [] ∧
      [i0, i1, i2] = List.replicate (3 - core.length) 36 ++ core ∧
      trimStart ([i0, i1, i2].map glyph) = core.map glyph := by
  have hstart (i : ℕ) (hi : i < 37) (places : List ℕ) : trimStart ((i :: places).map glyph) =
      if i = 36 then trimStart (places.map glyph) else (i :: places).map glyph := by
    rw [List.map_cons, trimStart_cons, isWhitespace_glyph i hi]
    simp only [decide_eq_true_eq]
  have hbelow (places : List ℕ) (hplaces : ∀ i ∈ places, i < 37) (h : ' ' ∉ places.map glyph) :
      ∀ i ∈ places, i < 36 := by
    intro i hi
    have hlt := hplaces i hi
    have hnot : i ≠ 36 := by
      rintro rfl
      exact h (List.mem_map.mpr ⟨36, hi, rfl⟩)
    omega
  rw [hstart i0 h0] at hne hspace ⊢
  by_cases hfirst : i0 = 36
  · rw [if_pos hfirst, hstart i1 h1] at hne hspace ⊢
    by_cases hmiddle : i1 = 36
    · rw [if_pos hmiddle, hstart i2 h2] at hne hspace ⊢
      by_cases hlast : i2 = 36
      · rw [if_pos hlast] at hne
        exact absurd rfl hne
      · rw [if_neg hlast] at hspace ⊢
        refine ⟨[i2], hbelow [i2] (by simp; omega) hspace, List.cons_ne_nil _ _, ?_, rfl⟩
        rw [hfirst, hmiddle]
        rfl
    · rw [if_neg hmiddle] at hspace ⊢
      refine ⟨[i1, i2], hbelow [i1, i2] (by simp; omega) hspace, List.cons_ne_nil _ _, ?_, rfl⟩
      rw [hfirst]
      rfl
  · rw [if_neg hfirst] at hspace ⊢
    exact ⟨[i0, i1, i2], hbelow [i0, i1, i2] (by simp; omega) hspace, List.cons_ne_nil _ _, rfl, rfl⟩

end Prefix

/-- What a call with an affix is good for: it is a word, and its parts are found again. -/
structure IsCompound (call callsign : List Char) (affix : ℕ) : Prop where
  word : ∀ c ∈ callsign, isWhitespace c = false
  plain : callsign.head? ≠ some '<'
  split : splitAffix callsign = some (call, affix)
  same : withAffix call affix = .ok callsign
  small : affix < 65536

theorem IsCompound.ne_nil {call callsign : List Char} {affix : ℕ}
    (hcompound : IsCompound call callsign affix) : callsign ≠ [] := by
  rintro rfl
  exact absurd hcompound.split nofun

theorem withAffix_prefix {call callsign : List Char} (hcall : IsCall call) {value : ℕ}
    (hvalue : value < 60000) (haffix : withAffix call value = .ok callsign) :
    IsCompound call callsign (value % 50653) := by
  have hmod (n : ℕ) : n % 37 < 37 := Nat.mod_lt n (by decide)
  have hunfold (value : ℕ) (hvalue : value < 60000) : withAffix call value =
      if trimStart ([value / 37 / 37 % 37, value / 37 % 37, value % 37].map glyph) ≠ [] ∧
        ' ' ∉ trimStart ([value / 37 / 37 % 37, value / 37 % 37, value % 37].map glyph) then
      .ok (trimStart ([value / 37 / 37 % 37, value / 37 % 37, value % 37].map glyph) ++ '/' :: call)
      else .error .failed := by
    rw [withAffix, if_pos hvalue]
    simp only [index_a37 (hmod _), ok_bind]
    rfl
  have hsame : withAffix call (value % 50653) = withAffix call value := by
    have hlast : value % 50653 % 37 = value % 37 := by omega
    have hmiddle : value % 50653 / 37 % 37 = value / 37 % 37 := by omega
    have hfirst : value % 50653 / 37 / 37 % 37 = value / 37 / 37 % 37 := by omega
    rw [hunfold value hvalue, hunfold _ (by omega), hlast, hmiddle, hfirst]
  have hgood := haffix
  rw [hunfold value hvalue] at hgood
  split_ifs at hgood with hcond
  obtain ⟨core, hcore, hne, hpad, htrim⟩ := trimStart_affix (hmod _) (hmod _) (hmod _) hcond.1 hcond.2
  rw [htrim] at hgood
  obtain rfl := Except.ok.inj hgood
  have hglyphs : ∀ c ∈ core.map glyph, ∃ i < 36, c = glyph i := by
    intro c hc
    obtain ⟨i, hi, rfl⟩ := List.mem_map.mp hc
    exact ⟨i, hcore i hi, rfl⟩
  have hslash : '/' ∉ core.map glyph := by
    intro hmem
    obtain ⟨i, hi, heq⟩ := hglyphs _ hmem
    exact (glyph_ne i (by omega)).1 heq.symm
  constructor
  · rw [List.forall_mem_append, List.forall_mem_cons]
    exact ⟨isWhitespace_of_glyphs hglyphs, rfl, isWhitespace_of_glyphs hcall.glyphs⟩
  · obtain ⟨first, rest, rfl⟩ := List.exists_cons_of_ne_nil hne
    intro hhead
    exact (glyph_ne first (Nat.lt_trans (hcore first List.mem_cons_self) (by decide))).2
      (Option.some.inj hhead)
  · have hpadded : List.leftpad 3 ' ' (core.map glyph) =
        [value / 37 / 37 % 37, value / 37 % 37, value % 37].map glyph := by
      rw [List.leftpad, List.length_map, hpad, List.map_append, List.map_replicate]
      rfl
    have hplaces : ∀ i ∈ [value / 37 / 37 % 37, value / 37 % 37, value % 37], i < 37 := by
      simp only [List.forall_mem_cons]
      exact ⟨hmod _, hmod _, hmod _, List.forall_mem_nil _⟩
    have hlong := hcall.bytes_long
    rw [splitAffix, splitOnce_append hslash]
    simp only [Option.bind_eq_bind, Option.bind_some]
    rw [if_neg (by omega), hpadded, bytes_glyphs hplaces]
    simp only [List.map_cons, List.map_nil, List.foldlM_cons, List.foldlM_nil, code_letter _ (hmod _),
      Option.map_some, Option.bind_eq_bind, Option.bind_some, Option.pure_def]
    have hdigits : value % 50653 =
        (value / 37 / 37 % 37 * 37 + value / 37 % 37) * 37 + value % 37 := by omega
    have hfirst := hmod (value / 37 / 37)
    have hmiddle := hmod (value / 37)
    have hlast := hmod value
    rw [hdigits, Nat.zero_mul, Nat.zero_add, Nat.mod_eq_of_lt (by omega), Nat.mod_eq_of_lt (by omega),
      Nat.mod_eq_of_lt (by omega)]
  · exact hsame.trans haffix
  · omega

theorem splitAffix_suffix {call suffix : List Char} (hcall : IsCall call)
    (hsuffix : (bytes suffix).length ≤ 2) : splitAffix (call ++ '/' :: suffix) =
      match bytes suffix with
      | [only] =>
          if isAsciiDigit only then some (call, 60000 + (only.toNat - 48))
          else if isAsciiUppercase only then some (call, 60000 + (only.toNat - 65 + 10))
          else none
      | [tens, ones] =>
          if isAsciiDigit tens && isAsciiDigit ones then
            some (call, 60000 + ((tens.toNat - 48) * 10 + (ones.toNat - 48) + 26))
          else none
      | _ => none := by
  have hlong := hcall.bytes_long
  rw [splitAffix, splitOnce_append hcall.notin]
  simp only [Option.bind_eq_bind, Option.bind_some]
  rw [if_pos ⟨hsuffix, by omega⟩]

/-- What follows a call, as the number of the affix has it. -/
def suffixText (suffix : ℕ) : List Char :=
  if suffix ≤ 9 then decimal suffix
  else if suffix ≤ 35 then [Char.ofNat (65 + (suffix - 10))]
  else List.leftpad 2 '0' (decimal (suffix - 26 : ℕ))

/-- Each suffix has its own text of one or two characters. -/
theorem suffixText_split : ∀ suffix < 126, (bytes (suffixText suffix)).length ≤ 2 ∧
    (suffixText suffix).all (fun c ↦ isWhitespace c = false) = true ∧
    (match bytes (suffixText suffix) with
      | [only] =>
          if isAsciiDigit only then some (only.toNat - 48)
          else if isAsciiUppercase only then some (only.toNat - 65 + 10)
          else none
      | [tens, ones] =>
          if isAsciiDigit tens && isAsciiDigit ones then
            some ((tens.toNat - 48) * 10 + (ones.toNat - 48) + 26)
          else none
      | _ => none) = some suffix := by
  decide

theorem withAffix_suffix {call callsign : List Char} (hcall : IsCall call) {value : ℕ}
    (hvalue : 60000 ≤ value) (haffix : withAffix call value = .ok callsign) :
    IsCompound call callsign value := by
  have hgood := haffix
  rw [withAffix, if_neg (not_lt.mpr hvalue)] at hgood
  have hshape : value - 60000 < 126 ∧ callsign = call ++ '/' :: suffixText (value - 60000) := by
    rw [suffixText]
    simp only [] at hgood
    split_ifs at hgood ⊢ with h9 h35 h125
    all_goals
      obtain rfl := Except.ok.inj hgood
      exact ⟨by omega, rfl⟩
  obtain ⟨hlt, rfl⟩ := hshape
  obtain ⟨hshort, hword, hsplit⟩ := suffixText_split (value - 60000) hlt
  have hnumber : 60000 + (value - 60000) = value := by omega
  constructor
  · rw [List.forall_mem_append, List.forall_mem_cons]
    exact ⟨isWhitespace_of_glyphs hcall.glyphs, rfl, isWhitespace_of_all hword⟩
  · cases hfirst : call with
    | nil =>
      have hlong := hcall.long
      rw [hfirst] at hlong
      exact absurd hlong (by decide)
    | cons first rest =>
      obtain ⟨i, hi, heq⟩ := hcall.glyphs first (by rw [hfirst]; exact List.mem_cons_self)
      intro hhead
      exact (glyph_ne i (by omega)).2 (heq.symm.trans (Option.some.inj hhead))
  · rw [splitAffix_suffix hcall hshort]
    revert hsplit
    split
    · split_ifs
      · intro h
        rw [Option.some.inj h, hnumber]
      · intro h
        rw [Option.some.inj h, hnumber]
      · exact nofun
    · split_ifs
      · intro h
        rw [Option.some.inj h, hnumber]
      · exact nofun
    · exact nofun
  · exact haffix
  · omega

theorem withAffix_spec {call callsign : List Char} (hcall : IsCall call) {value : ℕ}
    (haffix : withAffix call value = .ok callsign) : ∃ affix, IsCompound call callsign affix := by
  rcases Nat.lt_or_ge value 60000 with hprefix | hsuffix
  · exact ⟨_, withAffix_prefix hcall hprefix haffix⟩
  · exact ⟨_, withAffix_suffix hcall hsuffix haffix⟩

/-! ## Payloads -/

section Payload

variable {callValue low : ℕ} {high : ℕ}

/-- The fields of a payload that was put together. -/
theorem payload_fields (hhigh : high < 2 ^ 15) (hlow : low < 2 ^ 7) (hcall : callValue < 2 ^ 32) :
    (callValue * 2 ^ 22 ||| (high * 2 ^ 7 ||| low)) / 2 ^ 22 % 2 ^ 32 = callValue ∧
      (callValue * 2 ^ 22 ||| (high * 2 ^ 7 ||| low)) % 2 ^ 22 / 128 = high ∧
      (callValue * 2 ^ 22 ||| (high * 2 ^ 7 ||| low)) % 2 ^ 22 % 128 = low := by
  have hrest : high * 2 ^ 7 ||| low = 2 ^ 7 * high + low := by
    rw [Nat.mul_comm, Nat.two_pow_add_eq_or_of_lt hlow]
  have hsmall : 2 ^ 7 * high + low < 2 ^ 22 := by omega
  rw [hrest, Nat.mul_comm callValue, ← Nat.two_pow_add_eq_or_of_lt hsmall]
  omega

/-- A payload is its fields. -/
theorem payload_eq {bits : ℕ} (hbits : bits < 2 ^ 50) :
    bits / 2 ^ 22 % 2 ^ 32 * 2 ^ 22 |||
      (bits % 2 ^ 22 / 128 * 2 ^ 7 ||| bits % 2 ^ 22 % 128) = bits := by
  have hlow : bits % 2 ^ 22 % 128 < 2 ^ 7 := Nat.mod_lt _ (by decide)
  rw [Nat.mul_comm (bits % 2 ^ 22 / 128), ← Nat.two_pow_add_eq_or_of_lt hlow, Nat.mul_comm _ (2 ^ 22),
    ← Nat.two_pow_add_eq_or_of_lt (by omega)]
  omega

end Payload

/-! ## Messages -/

theorem glyph_lt : ∀ i < 36, (glyph i).toNat < 128 := by decide

theorem hashed_no_panic {call : List Char} (hcall : IsCall call) (hash : ℕ) (powerDbm : ℤ)
    (book : CallBook) : hashed call hash powerDbm book ≠ .error .panic := by
  rw [hashed]
  by_cases hrefuse : (bytes call).length ≠ 6 ∨ powerDbm ∉ powers
  · rw [if_pos hrefuse]
    exact nofun
  · rw [if_neg hrefuse]
    have hlength : call.length = 6 := by
      rw [← length_bytes_glyphs hcall.glyphs]
      exact not_ne_iff.mp fun h ↦ hrefuse (Or.inl h)
    have hascii : ∀ c ∈ call, c.toNat < 128 := by
      intro c hc
      obtain ⟨i, hi, rfl⟩ := hcall.glyphs c hc
      exact glyph_lt i hi
    have hgrid : ∀ c ∈ call.drop 5 ++ call.take 5, ∃ i < 36, c = glyph i := by
      intro c hc
      rcases List.mem_append.mp hc with hlast | hfirst
      · exact hcall.glyphs c (List.mem_of_mem_drop hlast)
      · exact hcall.glyphs c (List.mem_of_mem_take hfirst)
    have hlocator : (bytes (call.drop 5 ++ call.take 5)).length = 6 := by
      rw [length_bytes_glyphs hgrid, List.length_append, List.length_drop, List.length_take]
      omega
    have hindex (i : ℕ) (hi : i < 6) : index (bytes (call.drop 5 ++ call.take 5)) i =
        .ok ((bytes (call.drop 5 ++ call.take 5)).getD i 0) :=
      index_of_lt (by rw [hlocator]; exact hi) 0
    rw [splitAt_ascii hascii (by omega), orPanic, ok_bind]
    simp only [hindex 0 (by decide), hindex 1 (by decide), hindex 2 (by decide), hindex 3 (by decide),
      hindex 4 (by decide), hindex 5 (by decide), ok_bind]
    split_ifs <;> exact nofun

theorem hashed_isHashed {call : List Char} {hash : ℕ} {powerDbm : ℤ} {book : CallBook}
    {message : Message} (hmessage : hashed call hash powerDbm book = .ok message) :
    message.IsHashed := by
  have hlookup : (book.lookup hash).head? = some '<' := by
    rw [CallBook.lookup]
    split <;> rfl
  rw [hashed] at hmessage
  split_ifs at hmessage
  obtain ⟨⟨before, after⟩, _, hmessage⟩ := bind_eq_ok.mp hmessage
  obtain ⟨l0, _, hmessage⟩ := bind_eq_ok.mp hmessage
  obtain ⟨l1, _, hmessage⟩ := bind_eq_ok.mp hmessage
  obtain ⟨l2, _, hmessage⟩ := bind_eq_ok.mp hmessage
  obtain ⟨l3, _, hmessage⟩ := bind_eq_ok.mp hmessage
  obtain ⟨l4, _, hmessage⟩ := bind_eq_ok.mp hmessage
  obtain ⟨l5, _, hmessage⟩ := bind_eq_ok.mp hmessage
  split_ifs at hmessage
  obtain rfl := Except.ok.inj hmessage
  exact hlookup

theorem compound_no_panic (call : List Char) (affix : ℕ) (kind : ℤ) (book : CallBook) :
    compound call affix kind book ≠ .error .panic := by
  rw [compound]
  split_ifs
  · exact nofun
  · apply bind_ne_panic (orFail_ne_panic _)
    intro extra hextra
    have hpos : 1 ≤ extra.toNat := by
      have hsome := orFail_eq_ok.mp hextra
      rw [extraOf] at hsome
      split_ifs at hsome with hlow hmiddle hhigh
      all_goals
        obtain rfl := Option.some.inj hsome
        omega
    rw [sub_of_le hpos, ok_bind]
    apply bind_ne_panic (withAffix_no_panic call _)
    intro callsign _
    obtain ⟨next, hnext⟩ := remember_ok book callsign
    rw [hnext]
    exact nofun

theorem unpack_no_panic (bits : ℕ) (book : CallBook) : unpack bits book ≠ .error .panic := by
  rw [unpack]
  apply bind_ne_panic (call6_no_panic _)
  intro call hcall
  split_ifs
  · apply bind_ne_panic (hashed_no_panic (call6_spec hcall).1 _ _ _)
    intro message _
    exact nofun
  · apply bind_ne_panic (grid4_no_panic _)
    intro grid _
    obtain ⟨next, hnext⟩ := remember_ok book call
    rw [hnext]
    exact nofun
  · exact compound_no_panic _ _ _ _

theorem IsCall.ne_nil {call : List Char} (hcall : IsCall call) : call ≠ [] := by
  rintro rfl
  exact absurd hcall.long (by decide)

theorem IsCall.head_ne {call : List Char} (hcall : IsCall call) : call.head? ≠ some '<' := by
  intro hhead
  obtain ⟨i, hi, heq⟩ := hcall.glyphs '<' (List.mem_of_head? hhead)
  exact (glyph_ne i (by omega)).2 heq.symm

/-- A message with a call, a grid and a power is packed to the payload that it came from. -/
theorem pack_located {bits : ℕ} (hbits : bits < 2 ^ 50) {call grid : List Char}
    (hcall : call6 (bits / 2 ^ 22 % 2 ^ 32) = .ok call) (hgrid : grid4 (bits % 2 ^ 22 / 128) = .ok grid)
    (hpower : ((bits % 2 ^ 22 % 128 : ℕ) - 64 : ℤ) ∈ powers) :
    pack (call ++ ' ' :: (grid ++ ' ' :: decimal ((bits % 2 ^ 22 % 128 : ℕ) - 64 : ℤ))) = .ok bits := by
  obtain ⟨hisCall, hpackCall⟩ := call6_spec hcall
  obtain ⟨hpackGrid, hgridNe, hgridWord⟩ := grid4_spec hgrid
  obtain ⟨hparse, hpowerNe, hpowerWord⟩ := power_text _ hpower
  have hwords : splitWhitespace
      (call ++ ' ' :: (grid ++ ' ' :: decimal ((bits % 2 ^ 22 % 128 : ℕ) - 64 : ℤ))) =
      [call, grid, decimal ((bits % 2 ^ 22 % 128 : ℕ) - 64 : ℤ)] := by
    rw [splitWhitespace_append (isWhitespace_of_glyphs hisCall.glyphs) hisCall.ne_nil,
      splitWhitespace_append hgridWord hgridNe, splitWhitespace_word (isWhitespace_of_all hpowerWord) hpowerNe]
  have hlow : (((bits % 2 ^ 22 % 128 : ℕ) - 64 : ℤ) + 64).toNat = bits % 2 ^ 22 % 128 := by omega
  rw [pack, hwords]
  simp only [hparse, orFail, ok_bind]
  rw [if_pos hisCall.head_ne, if_neg (not_not.mpr hpower), hpackCall]
  simp only [hpackGrid, ok_bind]
  rw [hlow, payload_eq hbits]

/-- The powers that stand for an affix are no others. -/
theorem extra_power : ∀ power ∈ powers, ∀ extra ∈ [(1 : ℤ), 2], power + extra ∉ powers ∧
    ¬(power + extra < 0 ∨ 62 < power + extra) ∧ extraOf ((power + extra) % 10) = some extra := by
  decide

theorem power_of_extra : ∀ kind : ℕ, kind < 63 → ∀ extra ∈ [(1 : ℤ), 2, 3],
    extraOf ((kind : ℤ) % 10) = some extra → (kind : ℤ) - extra ∈ powers := by
  decide

theorem extra_mem {unit extra : ℤ} (hextra : extraOf unit = some extra) :
    extra ∈ [(1 : ℤ), 2, 3] := by
  rw [extraOf] at hextra
  simp only [List.mem_cons, List.not_mem_nil, or_false]
  split_ifs at hextra with hlow hmiddle hhigh
  all_goals
    obtain rfl := Option.some.inj hextra
    omega

theorem extra_of_affix {affix : ℕ} (haffix : affix < 65536) :
    ((affix / 32768 + 1 : ℕ) : ℤ) ∈ [(1 : ℤ), 2] := by
  simp only [List.mem_cons, List.not_mem_nil, or_false]
  omega

/-- A call with an affix is packed to a payload of the same message. -/
theorem pack_compound {callValue affix : ℕ} {power : ℤ} {call callsign : List Char}
    (hcall : call6 callValue = .ok call) (hcompound : IsCompound call callsign affix)
    (hpower : power ∈ powers) (hvalue : callValue < 2 ^ 32) :
    ∃ bits, pack (callsign ++ ' ' :: decimal power) = .ok bits ∧ ∃ next,
      unpack bits CallBook.empty = .ok ({
        text := callsign ++ ' ' :: decimal power
        callsign := callsign
        grid := none
        powerDbm := power }, next) := by
  obtain ⟨hisCall, hpackCall⟩ := call6_spec hcall
  obtain ⟨hparse, hpowerNe, hpowerWord⟩ := power_text _ hpower
  have hsmall := hcompound.small
  obtain ⟨hother, hrange, hextra⟩ := extra_power power hpower _ (extra_of_affix hsmall)
  have hwords : splitWhitespace (callsign ++ ' ' :: decimal power) = [callsign, decimal power] := by
    rw [splitWhitespace_append hcompound.word hcompound.ne_nil,
      splitWhitespace_word (isWhitespace_of_all hpowerWord) hpowerNe]
  generalize hkind : power + ((affix / 32768 + 1 : ℕ) : ℤ) = kind at hother hrange hextra
  obtain ⟨low, hlow⟩ : ∃ low : ℕ, low = ((kind + 64) % 2 ^ 32).toNat := ⟨_, rfl⟩
  have hlowKind : (low : ℤ) - 64 = kind := by omega
  have hpack : pack (callsign ++ ' ' :: decimal power) =
      .ok (callValue * 2 ^ 22 ||| (affix % 32768 * 2 ^ 7 ||| low)) := by
    rw [pack, hwords]
    simp only [hparse, orFail, ok_bind, hcompound.split, hpackCall]
    rw [hkind, ← hlow]
  have hhigh : affix % 32768 < 2 ^ 15 := Nat.mod_lt affix (by decide)
  obtain ⟨hfirst, hsecond, hthird⟩ := payload_fields hhigh (by omega : low < 2 ^ 7) hvalue
  obtain ⟨next, hnext⟩ := remember_ok CallBook.empty callsign
  refine ⟨_, hpack, next, ?_⟩
  have habove : ((affix / 32768 + 1 : ℕ) : ℤ).toNat - 1 = affix / 32768 := by omega
  have hwhole : affix % 32768 + 32768 * (affix / 32768) = affix := Nat.mod_add_div affix 32768
  have hagain : kind - ((affix / 32768 + 1 : ℕ) : ℤ) = power := by omega
  simp only [unpack, hfirst, hsecond, hthird, hcall, ok_bind, hlowKind]
  rw [if_neg (by omega), if_neg hother, compound, if_neg hrange, hextra, orFail, ok_bind,
    sub_of_le (by omega), ok_bind, habove, hwhole, hcompound.same, ok_bind, hnext, ok_bind, hagain]

/-! ## The codec -/

/-- The messages in brackets are those of negative kind. -/
theorem isHashed_iff {bits : ℕ} {book next : CallBook} {message : Message}
    (hmessage : unpack bits book = .ok (message, next)) :
    message.IsHashed ↔ ((bits % 2 ^ 22 % 128 : ℕ) - 64 : ℤ) < 0 := by
  rw [unpack] at hmessage
  obtain ⟨call, hcall, hmessage⟩ := bind_eq_ok.mp hmessage
  split_ifs at hmessage with hnegative hpower
  · obtain ⟨inner, hinner, hmessage⟩ := bind_eq_ok.mp hmessage
    obtain ⟨rfl, _⟩ := Prod.mk.inj (Except.ok.inj hmessage)
    exact iff_of_true (hashed_isHashed hinner) hnegative
  · obtain ⟨grid, _, hmessage⟩ := bind_eq_ok.mp hmessage
    obtain ⟨known, _, hmessage⟩ := bind_eq_ok.mp hmessage
    obtain ⟨rfl, _⟩ := Prod.mk.inj (Except.ok.inj hmessage)
    exact iff_of_false (call6_spec hcall).1.head_ne hnegative
  · rw [compound] at hmessage
    split_ifs at hmessage with hrange
    obtain ⟨extra, _, hmessage⟩ := bind_eq_ok.mp hmessage
    obtain ⟨above, _, hmessage⟩ := bind_eq_ok.mp hmessage
    obtain ⟨callsign, haffix, hmessage⟩ := bind_eq_ok.mp hmessage
    obtain ⟨known, _, hmessage⟩ := bind_eq_ok.mp hmessage
    obtain ⟨rfl, _⟩ := Prod.mk.inj (Except.ok.inj hmessage)
    obtain ⟨affix, hcompound⟩ := withAffix_spec (call6_spec hcall).1 haffix
    exact iff_of_false hcompound.plain hnegative

/-- Unpacking reads within its tables, and each message with the call in full is packed to bits of the
same message. -/
theorem pack_unpack {bits : ℕ} (hbits : bits < 2 ^ 50) :
    (∀ book, unpack bits book ≠ .error .panic) ∧
      ∀ message next, unpack bits CallBook.empty = .ok (message, next) → ¬message.IsHashed →
        ∃ packed, pack message.text = .ok packed ∧
          ∃ next', unpack packed CallBook.empty = .ok (message, next') := by
  refine ⟨fun book ↦ unpack_no_panic bits book, ?_⟩
  intro message next hmessage hplain
  have hunpack := hmessage
  rw [unpack] at hmessage
  obtain ⟨call, hcall, hmessage⟩ := bind_eq_ok.mp hmessage
  split_ifs at hmessage with hnegative hpower
  · exact absurd ((isHashed_iff hunpack).mpr hnegative) hplain
  · obtain ⟨grid, hgrid, hmessage⟩ := bind_eq_ok.mp hmessage
    obtain ⟨book, _, hmessage⟩ := bind_eq_ok.mp hmessage
    obtain ⟨rfl, _⟩ := Prod.mk.inj (Except.ok.inj hmessage)
    exact ⟨bits, pack_located hbits hcall hgrid hpower, next, hunpack⟩
  · rw [compound] at hmessage
    split_ifs at hmessage with hrange
    obtain ⟨extra, hextra, hmessage⟩ := bind_eq_ok.mp hmessage
    obtain ⟨above, _, hmessage⟩ := bind_eq_ok.mp hmessage
    obtain ⟨callsign, haffix, hmessage⟩ := bind_eq_ok.mp hmessage
    obtain ⟨book, _, hmessage⟩ := bind_eq_ok.mp hmessage
    obtain ⟨rfl, _⟩ := Prod.mk.inj (Except.ok.inj hmessage)
    obtain ⟨affix, hcompound⟩ := withAffix_spec (call6_spec hcall).1 haffix
    have hkind : ((bits % 2 ^ 22 % 128 : ℕ) - 64 : ℤ) = ((bits % 2 ^ 22 % 128 - 64 : ℕ) : ℤ) := by omega
    have hsome := orFail_eq_ok.mp hextra
    rw [hkind] at hsome
    have hpowers := power_of_extra _ (by omega) extra (extra_mem hsome) hsome
    rw [← hkind] at hpowers
    exact pack_compound hcall hcompound hpowers (Nat.mod_lt _ (by decide))

/-- A call with a prefix. -/
def portable : Message where
  text := "PJ4/K1ABC 37".toList
  callsign := "PJ4/K1ABC".toList
  grid := none
  powerDbm := 37

theorem unpack_portable : ∃ next, unpack 1086526029314663 CallBook.empty = .ok (portable, next) := by
  obtain ⟨next, hnext⟩ := remember_ok CallBook.empty "PJ4/K1ABC".toList
  have hcall : call6 (1086526029314663 / 2 ^ 22 % 2 ^ 32) = .ok "K1ABC".toList := by decide
  have haffix : withAffix "K1ABC".toList (2164 + 32768 * 1) = .ok "PJ4/K1ABC".toList := by decide
  have hcompound : compound "K1ABC".toList 2164 39 CallBook.empty = .ok (portable, next) := by
    have hextra : extraOf (39 % 10) = some 2 := by decide
    have habove : sub (2 : ℤ).toNat 1 = .ok 1 := rfl
    rw [compound, if_neg (by decide), hextra, orFail, ok_bind, habove, ok_bind, haffix, ok_bind, hnext,
      ok_bind]
    rfl
  refine ⟨next, ?_⟩
  rw [unpack, hcall, ok_bind, if_neg (by decide), if_neg (by decide)]
  exact hcompound

theorem pack_unpack_portable : ∃ packed, pack portable.text = .ok packed ∧
    ∃ next, unpack packed CallBook.empty = .ok (portable, next) := by
  obtain ⟨next, hnext⟩ := unpack_portable
  exact (pack_unpack (by decide : 1086526029314663 < 2 ^ 50)).2 portable next hnext (by
    rw [Message.IsHashed]
    decide)

end Sdrmm.Wspr
