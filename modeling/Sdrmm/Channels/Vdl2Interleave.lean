import Sdrmm.Dsp.Rs256

/-!
# Block coding of VDL mode 2

The interleaver of `channels/src/vdl2/interleave.rs`.  A burst is cut into rows of 249 octets, each row
is a Reed-Solomon codeword of 255 octets, and the rows are sent column by column.  The last row is
shortened: its missing data octets are zeros that are not sent, and the shorter it is, the fewer of its
check octets are sent.

Bits are octets of value zero and one, as in the source.  Residuals are floats there; here they are
of any type with the operations of `Residual`.
-/

namespace Sdrmm.Vdl2

open Rs256

def rowDataOctets : ℕ := 249

def rowDataBits : ℕ := rowDataOctets * 8

def rowOctets : ℕ := 255

def npar : Fin 256 := 6

def primitive : UInt16 := 0x187

def firstRoot : UInt8 := 120

def maxTlBits : ℕ := 131071

def softErasures : ℕ := 2

def vdl2Rs : ReedSolomon := ReedSolomon.new primitive firstRoot npar

def checksFor (n : ℕ) : ℕ :=
  if n ≤ 2 then 0 else if n ≤ 30 then 2 else if n ≤ 67 then 4 else npar.val

/-! ## Layout -/

structure Layout where
  rows : List ℕ
  checks : List ℕ
  totalTxBits : ℕ

def Layout.transmitted (lay : Layout) (row col : ℕ) : Bool :=
  col < lay.rows.getD row 0 ∨ (rowDataOctets ≤ col ∧ col < rowDataOctets + lay.checks.getD row 0)

def divCeil (a b : ℕ) : ℕ := (a + b - 1) / b

/-- Cut the remaining octets into rows. -/
def cutRows : ℕ → ℕ → List ℕ
  | 0, _ => []
  | rowCount + 1, remaining =>
      let n := min remaining rowDataOctets
      n :: cutRows rowCount (remaining - n)

def layout (tlBits : ℕ) : Option Layout :=
  if tlBits = 0 ∨ tlBits > maxTlBits then none
  else
    let rows := cutRows (divCeil tlBits rowDataBits) (divCeil tlBits 8)
    let checks := rows.map checksFor
    some ⟨rows, checks, ((rows.zip checks).map fun (d, k) ↦ (d + k) * 8).sum⟩

/-- The cells that are sent, in the order of sending. -/
def Layout.cells (lay : Layout) : List (ℕ × ℕ) :=
  (List.range rowOctets).flatMap fun col ↦
    ((List.range lay.rows.length).filter fun r ↦ lay.transmitted r col).map fun r ↦ (r, col)

/-! ## Bits and octets -/

def octetOf (bits : List UInt8) : UInt8 :=
  bits.zipIdx.foldl (fun b (v, i) ↦ b ||| (v <<< UInt8.ofNat i)) 0

def bitsToOctets (bits : List UInt8) : List UInt8 :=
  (List.range (divCeil bits.length 8)).map fun k ↦ octetOf ((bits.drop (8 * k)).take 8)

def bitsOf (octet : UInt8) : List UInt8 :=
  (List.range 8).map fun i ↦ (octet >>> UInt8.ofNat i) &&& 1

def octetsToBits (octets : List UInt8) (nbits : ℕ) : List UInt8 :=
  (octets.flatMap bitsOf).take nbits

/-! ## Sending -/

/-- Encode the rows, `off` octets into the data. -/
def encodeRows (rs : ReedSolomon) (octets : List UInt8) : List ℕ → ℕ → List (List UInt8)
  | [], _ => []
  | n :: rows, off =>
      let row := (octets.drop off).take n ++ List.replicate (rowDataOctets - n) 0
      rs.encode row [] :: encodeRows rs octets rows (off + n)

/-- The octet of a grid at a cell. -/
def cellOf (grid : List (List UInt8)) (cell : ℕ × ℕ) : UInt8 := (grid.getD cell.1 []).getD cell.2 0

def interleave (dataBits : List UInt8) (rs : ReedSolomon) : Option (List UInt8) :=
  (layout dataBits.length).map fun lay ↦
    let grid := encodeRows rs (bitsToOctets dataBits) lay.rows 0
    let outOctets := lay.cells.map (cellOf grid)
    octetsToBits outOctets (outOctets.length * 8)

/-! ## Receiving -/

structure Deinterleaved where
  bits : List UInt8
  corrected : ℕ
  softAssisted : Bool
  deriving DecidableEq

/-- What is done with the residual of a symbol, a 32-bit float in the source. -/
class Residual (γ : Type) where
  zero : γ
  max : γ → γ → γ
  /-- Not greater by `total_cmp`. -/
  le : γ → γ → Bool
  /-- Not less than `DOUBTFUL_RESIDUAL`. -/
  doubtful : γ → Bool

inductive Erasures
  | doubtful
  | least (count : ℕ)

structure RowFix where
  corrected : ℕ
  softAssisted : Bool

section Soft

variable {γ : Type} [Residual γ]

def octetConfidence (octetCount : ℕ) (symConf : List γ) (bitOffset : ℕ) : List γ :=
  (List.range octetCount).map fun o ↦
    let firstSym := (bitOffset + o * 8) / 3
    let lastSym := (bitOffset + o * 8 + 7) / 3
    ((List.range' firstSym (lastSym + 1 - firstSym)).map fun s ↦ symConf.getD s Residual.zero).foldl
      Residual.max Residual.zero

/-- The check octets of a row that are never sent. -/
def unsent (checks : ℕ) : List ℕ :=
  List.range' (rowDataOctets + checks) (rowOctets - (rowDataOctets + checks))

/-- The octets of a row that were sent, those with the greatest residuals first. -/
def ranked (confidence : List γ) (data checks : ℕ) : List ℕ :=
  ((List.range rowOctets).filter fun col ↦
    col < data ∨ (rowDataOctets ≤ col ∧ col < rowDataOctets + checks)).mergeSort
    fun a b ↦ Residual.le (confidence.getD b Residual.zero) (confidence.getD a Residual.zero)

/-- The attempts with more and more octets erased for their residuals. -/
def attempts (rs : ReedSolomon) (row : List UInt8) (confidence : List γ) (base order : List ℕ) :
    List ℕ → Option (RowFix × List UInt8)
  | [] => none
  | extra :: extras =>
      if extra > npar.val - base.length then none
      else if extra > 0 ∧ ¬(extra ≤ order.length ∧
          (order.take extra).all fun p ↦ Residual.doubtful (confidence.getD p Residual.zero)) then none
      else
        match rs.decodeWithErasures row (base ++ order.take extra) with
        | (some fixed, attempt) => some (⟨fixed - base.length, decide (extra > 0)⟩, attempt)
        | (none, _) => attempts rs row confidence base order extras

/-- Correct a row, which is returned as it is then. -/
def correctRow (row : List UInt8) (confidence : List γ) (data checks : ℕ) (rs : ReedSolomon)
    (erasures : Erasures) : Option (RowFix × List UInt8) :=
  let base := unsent checks
  let budget := npar.val - base.length
  let order := ranked confidence data checks
  match erasures with
  | .least count =>
      if count + 2 ≤ budget ∧ count ≤ order.length then
        match rs.decodeWithErasures row (base ++ order.take count) with
        | (some fixed, attempt) => some (⟨fixed - base.length, true⟩, attempt)
        | (none, _) => none
      else attempts rs row confidence base order [0, softErasures]
  | .doubtful => attempts rs row confidence base order [0, softErasures]

/-- Put the values where they belong, if there are enough of them. -/
def fill {β : Type} : List (ℕ × ℕ) → List β → List (List β) → Option (List (List β))
  | [], _, grid => some grid
  | _ :: _, [], _ => none
  | cell :: cells, value :: values, grid =>
      fill cells values (grid.modify cell.1 fun row ↦ row.set cell.2 value)

/-- One row: the octets corrected so far, whether residuals helped, and the data so far. -/
def rowStep (lay : Layout) (cgrid : List (List γ)) (rs : ReedSolomon) (erasures : Erasures)
    (state : ℕ × Bool × List UInt8) (item : List UInt8 × ℕ) : Option (ℕ × Bool × List UInt8) :=
  let n := lay.rows.getD item.2 0
  let k := lay.checks.getD item.2 0
  if k > 0 then
    (correctRow item.1 (cgrid.getD item.2 []) n k rs erasures).map fun (fix, row) ↦
      (state.1 + fix.corrected, state.2.1 || fix.softAssisted, state.2.2 ++ row.take n)
  else some (state.1, state.2.1, state.2.2 ++ item.1.take n)

def deinterleaveSoft (txBits : List UInt8) (symConf : List γ) (bitOffset tlBits : ℕ)
    (rs : ReedSolomon) (erasures : Erasures) : Option Deinterleaved := do
  let lay ← layout tlBits
  if txBits.length < lay.totalTxBits then none
  else
    let octets := bitsToOctets (txBits.take lay.totalTxBits)
    let octetConf := octetConfidence octets.length symConf bitOffset
    let grid ← fill lay.cells octets (List.replicate lay.rows.length (List.replicate rowOctets 0))
    let cgrid ← fill lay.cells octetConf
      (List.replicate lay.rows.length (List.replicate rowOctets Residual.zero))
    let (corrected, softAssisted, dataOctets) ←
      grid.zipIdx.foldlM (rowStep lay cgrid rs erasures) (0, false, [])
    some ⟨octetsToBits dataOctets tlBits, corrected, softAssisted⟩

end Soft

end Sdrmm.Vdl2
