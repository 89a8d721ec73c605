import Mathlib.Data.UInt
import Sdrmm.Lib.Numerals
import Sdrmm.Lib.SymbolArray

/-!
# Reed-Solomon codes over GF(256)

The codec of `dsp/src/fec/rs256.rs`: exponent and logarithm tables grown from a primitive
polynomial, the generator polynomial, systematic encoding, and decoding of errors and erasures by
Berlekamp-Massey, an exhaustive root search and Forney's formula.  Fixed arrays of the source are
lists of their length and slices are prefixes of them.  A decoder returns its verdict together with
the codeword it leaves behind, which it changes in place.

This file holds the model.  The tables are related to a field in `Sdrmm.Dsp.Rs256Field` and the
decoders are proved correct in `Sdrmm.Dsp.Rs256Decode`.
-/

namespace Sdrmm.Rs256

open SymbolArray

def size : ℕ := 256

def order : ℕ := size - 1

def dvbPrimitive : UInt16 := 0x11D

structure ReedSolomon where
  exp : List UInt8
  log : List UInt8
  generator : List UInt8
  parity : ℕ
  firstRoot : UInt8
  rootMultiples : List (List UInt8)

/-- The variables of the loop that fills the tables. -/
structure Tables where
  exp : List UInt8
  log : List UInt8
  value : UInt16

def Tables.initial : Tables where
  exp := List.replicate (2 * order) 0
  log := List.replicate size 0
  value := 1

def Tables.step (primitive : UInt16) (tables : Tables) (index : ℕ) : Tables :=
  let value := tables.value <<< 1
  { exp := (tables.exp.set index tables.value.toUInt8).set (index + order) tables.value.toUInt8
    log := tables.log.set tables.value.toNat (UInt8.ofNat index)
    value := if value &&& 256 ≠ 0 then value ^^^ primitive else value }

def Tables.fill (primitive : UInt16) : Tables :=
  (List.range order).foldl (Tables.step primitive) Tables.initial

namespace ReedSolomon

variable (code : ReedSolomon)

def power (exponent : ℕ) : UInt8 := code.exp.getD (exponent % order) 0

def mul (a b : UInt8) : UInt8 :=
  if a = 0 ∨ b = 0 then 0
  else code.exp.getD ((code.log.getD a.toNat 0).toNat + (code.log.getD b.toNat 0).toNat) 0

def inv (a : UInt8) : UInt8 := code.exp.getD (order - (code.log.getD a.toNat 0).toNat) 0

/-- The root of the generator with a given index. -/
def root (index : ℕ) : UInt8 := code.power (code.firstRoot.toNat + index)

/-- Multiply an ascending polynomial by `x + root`. -/
def timesRoot (root : UInt8) (ascending : List UInt8) : List UInt8 :=
  ascending.zipIdx.foldl (fun next (coefficient, position) ↦
    xorAt (xorAt next position (code.mul coefficient root)) (position + 1) coefficient)
    (List.replicate (ascending.length + 1) 0)

def buildGenerator : List UInt8 :=
  ((List.range code.parity).foldl
    (fun ascending index ↦ code.timesRoot (code.root index) ascending) [1]).reverse

/-- `ReedSolomon::new`; the type of `parity` is its assertion. -/
def new (primitive : UInt16) (firstRoot : UInt8) (parity : Fin 256) : ReedSolomon :=
  let tables := Tables.fill primitive
  let bare : ReedSolomon :=
    { exp := tables.exp
      log := tables.log
      generator := []
      parity := parity.val
      firstRoot := firstRoot
      rootMultiples := [] }
  { bare with
    generator := bare.buildGenerator
    rootMultiples := (List.range parity.val).map fun index ↦
      (List.range 256).map fun value ↦ bare.mul (UInt8.ofNat value) (bare.root index) }

/-- One coefficient of `evaluate`: the sum so far and the power that multiplies the next one. -/
def evaluateStep (at₀ : UInt8) (state : UInt8 × UInt8) (coefficient : UInt8) : UInt8 × UInt8 :=
  (state.1 ^^^ code.mul coefficient state.2, code.mul state.2 at₀)

def evaluate (ascending : List UInt8) (at₀ : UInt8) : UInt8 :=
  (ascending.foldl (code.evaluateStep at₀) (0, 1)).1

def correctable : ℕ := code.parity / 2

/-- Divide out the leading coefficient at `index`, leaving it in place. -/
def encodeStep (start : ℕ) (out : List UInt8) (index : ℕ) : List UInt8 :=
  let coefficient := out.getD (start + index) 0
  if coefficient = 0 then out
  else (code.generator.zipIdx.drop 1).foldl (fun out (factor, offset) ↦
    xorAt out (start + index + offset) (code.mul factor coefficient)) out

/-- Append the codeword of `data` to `out`. -/
def encode (data out : List UInt8) : List UInt8 :=
  let start := out.length
  let divided := (List.range data.length).foldl (code.encodeStep start)
    (out ++ data ++ List.replicate code.parity 0)
  divided.take start ++ data ++ divided.drop (start + data.length)

def syndrome (codeword table : List UInt8) : UInt8 :=
  codeword.foldl (fun value symbol ↦ table.getD value.toNat 0 ^^^ symbol) 0

def syndromes (codeword : List UInt8) : List UInt8 :=
  code.rootMultiples.map (syndrome codeword) ++
    List.replicate (256 - code.rootMultiples.length) 0

/-- The variables of the Berlekamp-Massey loop. -/
structure Massey where
  locator : List UInt8
  previous : List UInt8
  locatorLen : ℕ
  previousLen : ℕ
  discrepancyAtUpdate : UInt8
  shift : ℕ
  errors : ℕ

def Massey.initial : Massey where
  locator := (List.replicate 256 0).set 0 1
  previous := (List.replicate 256 0).set 0 1
  locatorLen := 1
  previousLen := 1
  discrepancyAtUpdate := 1
  shift := 1
  errors := 0

def discrepancy (syndromes : List UInt8) (m : Massey) (step : ℕ) : UInt8 :=
  (List.range' 1 (min m.errors step)).foldl (fun discrepancy index ↦
    if index < m.locatorLen then
      discrepancy ^^^ code.mul (m.locator.getD index 0) (syndromes.getD (step - index) 0)
    else discrepancy) (syndromes.getD step 0)

/-- The locator after cancelling a discrepancy. -/
def cancel (m : Massey) (discrepancy : UInt8) : List UInt8 :=
  let scale := code.mul discrepancy (code.inv m.discrepancyAtUpdate)
  (m.previous.take (min m.previousLen (256 - m.shift))).zipIdx.foldl
    (fun locator (coefficient, index) ↦
      xorAt locator (index + m.shift) (code.mul scale coefficient)) m.locator

def masseyStep (syndromes : List UInt8) (m : Massey) (step : ℕ) : Massey :=
  let discrepancy := code.discrepancy syndromes m step
  if discrepancy = 0 then { m with shift := m.shift + 1 }
  else
    let locator := code.cancel m discrepancy
    let locatorLen := min (max m.locatorLen (m.previousLen + m.shift)) 256
    if 2 * m.errors ≤ step then
      { locator := locator
        previous := m.locator
        locatorLen := locatorLen
        previousLen := m.locatorLen
        discrepancyAtUpdate := discrepancy
        shift := 1
        errors := step + 1 - m.errors }
    else { m with locator := locator, locatorLen := locatorLen, shift := m.shift + 1 }

def berlekampMassey (syndromes : List UInt8) : List UInt8 × ℕ :=
  let m := (List.range syndromes.length).foldl (code.masseyStep syndromes) Massey.initial
  (m.locator, m.errors)

/-- The inverse of the locator value of `position`. -/
def inversePoint (position : ℕ) : UInt8 := code.power (order - position % order)

/-- The positions at which `locator` vanishes, if there are exactly `errors` of them. -/
def chien (locator : List UInt8) (length errors : ℕ) : Option (List ℕ) :=
  let positions := (List.range length).filter fun position ↦
    code.evaluate locator (code.inversePoint position) = 0
  if positions.length = errors then some positions else none

def evaluator (syndromes locator : List UInt8) : List UInt8 :=
  truncatedProduct code.mul 256 code.parity locator syndromes

def magnitude (evaluator derivative : List UInt8) (position : ℕ) : Option UInt8 :=
  let inverse := code.inversePoint position
  let denominator := code.evaluate derivative inverse
  if denominator = 0 then none
  else
    let ratio := code.mul (code.evaluate evaluator inverse) (code.inv denominator)
    let exponent := (order * size - code.firstRoot.toNat * position % order) % order
    some (code.mul ratio (code.power exponent))

/-- The odd coefficients of the locator, at their own places. -/
def derivative (locator : List UInt8) : List UInt8 :=
  locator.zipIdx.foldl (fun derivative (coefficient, index) ↦
    if index % 2 = 1 then derivative.set index coefficient else derivative)
    (List.replicate 256 0)

/-- Xor the magnitudes into the codeword, one position after the other.  A position without a
magnitude or without an index ends the loop with what has been changed so far. -/
def correct (evaluator derivative : List UInt8) (indexOf : ℕ → Option ℕ) :
    List ℕ → List UInt8 → Bool × List UInt8
  | [], codeword => (true, codeword)
  | position :: positions, codeword =>
    match code.magnitude evaluator derivative position with
    | none => (false, codeword)
    | some magnitude =>
      match indexOf position with
      | none => (false, codeword)
      | some index =>
        correct evaluator derivative indexOf positions (xorAt codeword index magnitude)

def checkedSub (a b : ℕ) : Option ℕ := if b ≤ a then some (a - b) else none

def decode (codeword : List UInt8) : Option ℕ × List UInt8 :=
  if codeword.length > 255 ∨ codeword.length < code.parity then (none, codeword)
  else
    let syndromes := (code.syndromes codeword).take code.parity
    if syndromes.all (· = 0) then (some 0, codeword)
    else
      let (locator, errors) := code.berlekampMassey syndromes
      if errors = 0 ∨ errors > code.correctable then (none, codeword)
      else
        let locator := locator.take (errors + 1)
        match code.chien locator codeword.length errors with
        | none => (none, codeword)
        | some positions =>
          let evaluator := code.evaluator syndromes locator
          let derivative := derivative locator
          let (finished, corrected) := code.correct (evaluator.take code.parity)
            (derivative.take locator.length)
            (fun position ↦ checkedSub codeword.length (1 + position))
            (positions.take errors) codeword
          if finished ∧ (code.syndromes corrected).all (· = 0) then (some errors, corrected)
          else (none, corrected)

/-- One factor of the erasure locator, multiplied in from the highest coefficient down. -/
def erasureFactor (root : UInt8) (gamma : List UInt8) (count : ℕ) : List UInt8 :=
  (List.range' 1 (count + 1)).reverse.foldl (fun gamma degree ↦
    xorAt gamma degree (code.mul root (gamma.getD (degree - 1) 0))) gamma

def erasureLocator (erasures : List ℕ) (len : ℕ) : List UInt8 :=
  erasures.zipIdx.foldl (fun gamma (index, count) ↦
    code.erasureFactor (code.power (len - 1 - index)) gamma count)
    ((List.replicate 256 0).set 0 1)

def product (a b : List UInt8) : List UInt8 := truncatedProduct code.mul 256 256 a b

def decodeWithErasures (codeword : List UInt8) (erasures : List ℕ) : Option ℕ × List UInt8 :=
  let len := codeword.length
  if len > order ∨ len < code.parity ∨ erasures.length > code.parity ∨
      erasures.any (· ≥ len) then (none, codeword)
  else
    let syndromes := (code.syndromes codeword).take code.parity
    if syndromes.all (· = 0) then (some 0, codeword)
    else
      let erased := erasures.length
      let gamma := code.erasureLocator erasures len
      let forney := code.evaluator syndromes (gamma.take (erased + 1))
      let (lambda, errors) := code.berlekampMassey ((forney.take code.parity).drop erased)
      if errors > (code.parity - erased) / 2 then (none, codeword)
      else
        let degree := errors + erased
        let errata := code.product (lambda.take (errors + 1)) (gamma.take (erased + 1))
        let locator := errata.take (degree + 1)
        match code.chien locator len degree with
        | none => (none, codeword)
        | some positions =>
          let evaluator := code.evaluator syndromes locator
          let derivative := derivative locator
          let (finished, corrected) := code.correct (evaluator.take code.parity)
            (derivative.take locator.length) (fun position ↦ some (len - 1 - position))
            (positions.take degree) codeword
          if finished ∧ ((code.syndromes corrected).take code.parity).all (· = 0) then
            (some degree, corrected)
          else (none, corrected)

end ReedSolomon

end Sdrmm.Rs256
