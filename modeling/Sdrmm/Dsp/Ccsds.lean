import Sdrmm.Dsp.Rs256Errata
import Sdrmm.Lib.Lanes
import Sdrmm.Lib.LookupTable

/-!
# The Reed-Solomon code of CCSDS

The codec of `dsp/src/fec/ccsds_rs.rs`: symbols travel in a dual basis, and the roots of the code are
powers of another element than the one the field is given by.  Both are undone by a table of 256
entries, after which the code is one of `Sdrmm.Dsp.Rs256`.  Several codewords share a block, byte by
byte in turn.
-/

namespace Sdrmm.Ccsds

open Rs256

def ccsdsBlock : ℕ := 255

def ccsdsParity : Fin 256 := 32

def ccsdsData : ℕ := ccsdsBlock - ccsdsParity.val

def fieldPoly : UInt16 := 0x187

def order : ℕ := 255

def rootStep : ℕ := 11

def rootStepInverse : ℕ := 116

def firstRoot : UInt8 := 112

def dualBasisRows : List UInt8 := [0x8d, 0xef, 0xec, 0x86, 0xfa, 0x99, 0xaf, 0x7b]

structure Field where
  exp : List UInt8
  log : List UInt8

namespace Field

/-- The loop is the one of `ReedSolomon::new`. -/
def new (poly : UInt16) : Field :=
  let tables := Tables.fill poly
  { exp := tables.exp, log := tables.log }

variable (field : Field)

def mul (a b : UInt8) : UInt8 :=
  if a = 0 ∨ b = 0 then 0
  else field.exp.getD ((field.log.getD a.toNat 0).toNat + (field.log.getD b.toNat 0).toNat) 0

end Field

/-- Multiply an ascending polynomial of a given degree by `x + root`, from its highest coefficient
down. -/
def timesRoot (mul : UInt8 → UInt8 → UInt8) (root : UInt8) (degree : ℕ) (product : List UInt8) :
    List UInt8 :=
  (List.range (degree + 1)).reverse.foldl (fun product index ↦
    (SymbolArray.xorAt product (index + 1) (product.getD index 0)).set index
      (mul (product.getD index 0) root)) product

/-- The passes of the loop: it ends when the conjugates repeat or the degree is eight. -/
def conjugates (mul : UInt8 → UInt8 → UInt8) (exp : ℕ → UInt8) (exponent : ℕ) :
    ℕ → ℕ → ℕ → List UInt8 → List UInt8 × ℕ
  | 0, degree, _, product => (product, degree)
  | rounds + 1, degree, conjugate, product =>
    let product := timesRoot mul (exp conjugate) degree product
    let conjugate := conjugate * 2 % order
    if conjugate = exponent % order then (product, degree + 1)
    else conjugates mul exp exponent rounds (degree + 1) conjugate product

def minimalOf (mul : UInt8 → UInt8 → UInt8) (exp : ℕ → UInt8) (exponent : ℕ) : UInt16 :=
  let (product, degree) :=
    conjugates mul exp exponent 8 0 (exponent % order) ((List.replicate 9 0).set 0 1)
  (product.take (degree + 1)).zipIdx.foldl
    (fun poly (bit, power) ↦ poly ||| (bit &&& 1).toUInt16 <<< UInt16.ofNat power) 0

def Field.minimalPolynomial (field : Field) (exponent : ℕ) : UInt16 :=
  minimalOf field.mul (fun index ↦ field.exp.getD index 0) exponent

/-- The dual symbol of a conventional one. -/
def dualOf (conventional : ℕ) : UInt8 :=
  ((List.range 8).filter fun bit ↦ conventional >>> bit &&& 1 = 1).foldl
    (fun acc bit ↦ acc ^^^ dualBasisRows.getD (7 - bit) 0) 0

def dualToConventional : List UInt8 :=
  (List.range 256).foldl (fun table conventional ↦
    table.set (dualOf conventional).toNat (UInt8.ofNat conventional)) (List.replicate 256 0)

structure CcsdsReedSolomon where
  code : ReedSolomon
  toCode : List UInt8
  fromCode : List UInt8

namespace CcsdsReedSolomon

/-- The polynomial the roots of the code are powers in. -/
def rootPoly : UInt16 := (Field.new fieldPoly).minimalPolynomial rootStep

/-- The entry of `to_code` for a symbol. -/
def slot (conventional rooted : Field) (dual : List UInt8) (symbol : ℕ) : UInt8 :=
  let value := dual.getD symbol 0
  if value = 0 then 0
  else rooted.exp.getD ((conventional.log.getD value.toNat 0).toNat * rootStepInverse % order) 0

@[irreducible] def new : CcsdsReedSolomon :=
  let conventional := Field.new fieldPoly
  let rooted := Field.new rootPoly
  let dual := dualToConventional
  { code := ReedSolomon.new rootPoly firstRoot ccsdsParity
    toCode := (List.range 256).map (slot conventional rooted dual)
    fromCode := (List.range 256).foldl (fun fromCode symbol ↦
      fromCode.set (slot conventional rooted dual symbol).toNat (UInt8.ofNat symbol))
      (List.replicate 256 0) }

variable (rs : CcsdsReedSolomon)

def mapTo (symbol : UInt8) : UInt8 := rs.toCode.getD symbol.toNat 0

def mapFrom (symbol : UInt8) : UInt8 := rs.fromCode.getD symbol.toNat 0

/-- The parity of as much data as a codeword has. -/
def encode (data : List UInt8) : List UInt8 :=
  let codeword := rs.code.encode (data.map rs.mapTo) []
  (codeword.drop ccsdsData).map rs.mapFrom

def decode (codeword : List UInt8) : Option ℕ × List UInt8 :=
  let (outcome, codeword) := rs.code.decode (codeword.map rs.mapTo)
  (outcome, codeword.map rs.mapFrom)

def encodeLane (data : List UInt8) (depth start : ℕ) (out : List UInt8) (lane : ℕ) : List UInt8 :=
  let laneData := Lanes.read 0 depth lane ccsdsData data
  Lanes.write depth lane start (laneData ++ rs.encode laneData) out

def encodeInterleaved (data : List UInt8) (depth : ℕ) (out : List UInt8) : List UInt8 :=
  (List.range depth).foldl (rs.encodeLane data depth out.length)
    (out ++ List.replicate (depth * ccsdsBlock) 0)

end CcsdsReedSolomon

structure InterleavedOutcome where
  corrected : ℕ
  failed : ℕ
  deriving DecidableEq

namespace CcsdsReedSolomon

variable (rs : CcsdsReedSolomon)

def decodeLane (depth : ℕ) (state : List UInt8 × InterleavedOutcome) (lane : ℕ) :
    List UInt8 × InterleavedOutcome :=
  let (block, outcome) := state
  match rs.decode (Lanes.read 0 depth lane ccsdsBlock block) with
  | (some corrected, codeword) =>
    (Lanes.write depth lane 0 codeword block,
      { outcome with corrected := outcome.corrected + corrected })
  | (none, _) => (block, { outcome with failed := outcome.failed + 1 })

def decodeInterleaved (block : List UInt8) (depth : ℕ) : List UInt8 × InterleavedOutcome :=
  if block.length < depth * ccsdsBlock then (block, { corrected := 0, failed := depth })
  else (List.range depth).foldl (rs.decodeLane depth) (block, { corrected := 0, failed := 0 })

end CcsdsReedSolomon

/-! ## The two fields -/

open BinaryField

section Field

variable {poly : UInt16} (hprimitive : IsPrimitive poly)

/-- A product without logarithms. -/
def wordMul (poly : UInt16) (a b : UInt8) : UInt8 :=
  UInt8.ofNat (product 8 poly.toNat b.toNat 8 a.toNat)

/-- A power without the table. -/
def wordPower (poly : UInt16) (index : ℕ) : UInt8 :=
  if index < 2 * order then UInt8.ofNat (rootPower 8 poly.toNat (index % order)) else 0

theorem exp_new (poly : UInt16) : (Field.new poly).exp = (Tables.fill poly).exp := by
  unfold Field.new
  generalize Tables.fill poly = tables
  rfl

theorem log_new (poly : UInt16) : (Field.new poly).log = (Tables.fill poly).log := by
  unfold Field.new
  generalize Tables.fill poly = tables
  rfl

/-- The field is the one of a code over it. -/
theorem mul_new (poly : UInt16) (a b : UInt8) :
    (Field.new poly).mul a b = (ReedSolomon.new poly 0 0).mul a b := by
  unfold Field.new ReedSolomon.new Field.mul ReedSolomon.mul
  generalize Tables.fill poly = tables
  rfl

include hprimitive

theorem mul_eq_wordMul (a b : UInt8) : (Field.new poly).mul a b = wordMul poly a b := by
  have : Fact (Irreducible (bitPoly poly.toNat)) := ⟨hprimitive.irreducible⟩
  have hrep := new_represents hprimitive 0 0
  have hlt := product_lt hprimitive.toHasDegree b.toNat_lt 8 a.toNat
  apply hrep.injective
  calc
    byteElement poly ((Field.new poly).mul a b) = byteElement poly a * byteElement poly b := by
      rw [mul_new, hrep.mul]
    _ = element poly.toNat (product 8 poly.toNat b.toNat 8 a.toNat) :=
      (element_product b.toNat a.toNat_lt).symm
    _ = byteElement poly (wordMul poly a b) := by
      rw [byteElement, wordMul, UInt8.toNat_ofNat', Nat.mod_eq_of_lt hlt]

theorem exp_eq_wordPower (index : ℕ) :
    (Field.new poly).exp.getD index 0 = wordPower poly index := by
  have hfilled := Tables.fill_filled hprimitive
  have horder : Rs256.order = 255 := rfl
  have hvalue (value : UInt8) (i : ℕ) (hnat : value.toNat = rootPower 8 poly.toNat i) :
      value = UInt8.ofNat (rootPower 8 poly.toNat i) := by
    rw [← hnat, UInt8.ofNat_toNat]
  rw [exp_new, wordPower]
  split_ifs with hindex
  · change index < 2 * 255 at hindex
    rcases Nat.lt_or_ge index 255 with hlow | hhigh
    · have hmod : index % order = index := Nat.mod_eq_of_lt hlow
      rw [hmod]
      exact hvalue _ _ (hfilled.expLow index hlow)
    · have hmod : index % order = index - 255 := by
        change index % 255 = index - 255
        omega
      have hentry := hfilled.expHigh (index - 255) (by omega)
      rw [horder, Nat.sub_add_cancel hhigh] at hentry
      rw [hmod]
      exact hvalue _ _ hentry
  · apply List.getD_eq_default
    rw [hfilled.expLength]
    exact not_lt.mp hindex

/-- Different powers of the root differ, and none is zero. -/
theorem exp_injective {i j : ℕ} (hi : i < 255) (hj : j < 255)
    (heq : (Field.new poly).exp.getD i 0 = (Field.new poly).exp.getD j 0) : i = j := by
  have hfilled := Tables.fill_filled hprimitive
  apply rootPower_injOn hprimitive.toHasDegree (by decide) hprimitive.order
  · exact Finset.mem_coe.mpr (Finset.mem_range.mpr hi)
  · exact Finset.mem_coe.mpr (Finset.mem_range.mpr hj)
  · rw [exp_new] at heq
    rw [← hfilled.expLow i hi, ← hfilled.expLow j hj, heq]

theorem exp_ne_zero {i : ℕ} (hi : i < 255) : (Field.new poly).exp.getD i 0 ≠ 0 := by
  intro hzero
  apply rootPower_ne_zero hprimitive.toHasDegree (by decide) hprimitive.order i
  rw [exp_new] at hzero
  rw [← (Tables.fill_filled hprimitive).expLow i hi, hzero]
  rfl

/-- Every nonzero byte is the power its logarithm names. -/
theorem exp_log {value : UInt8} (hvalue : value ≠ 0) :
    ((Field.new poly).log.getD value.toNat 0).toNat < 255 ∧
      (Field.new poly).exp.getD ((Field.new poly).log.getD value.toNat 0).toNat 0 = value := by
  have hfilled := Tables.fill_filled hprimitive
  have hne : value.toNat ≠ 0 := by
    intro hzero
    exact hvalue (UInt8.toNat_inj.mp hzero)
  obtain ⟨i, hi, hword⟩ := exists_rootPower hprimitive.toHasDegree (by decide) hprimitive.order
    value.toNat_lt hne
  have hlog : ((Field.new poly).log.getD value.toNat 0).toNat = i := by
    rw [log_new, ← hword]
    exact hfilled.log i hi
  rw [hlog, exp_new]
  constructor
  · exact hi
  · apply UInt8.toNat_inj.mp
    rw [← hword]
    exact hfilled.expLow i hi

end Field

set_option maxRecDepth 100000 in
theorem fieldPoly_isPrimitive : IsPrimitive fieldPoly :=
  isPrimitive_of_powers ⟨by decide, by decide⟩ (by decide) (by decide)

set_option maxRecDepth 100000 in
theorem rootPoly_eq : CcsdsReedSolomon.rootPoly = 0x15F := by
  have hmul : (Field.new fieldPoly).mul = wordMul fieldPoly := by
    funext a b
    exact mul_eq_wordMul fieldPoly_isPrimitive a b
  have hexp : (fun index ↦ (Field.new fieldPoly).exp.getD index 0) = wordPower fieldPoly := by
    funext index
    exact exp_eq_wordPower fieldPoly_isPrimitive index
  rw [CcsdsReedSolomon.rootPoly, Field.minimalPolynomial, hmul, hexp]
  decide

set_option maxRecDepth 100000 in
theorem rootPoly_isPrimitive : IsPrimitive CcsdsReedSolomon.rootPoly := by
  rw [rootPoly_eq]
  exact isPrimitive_of_powers ⟨by decide, by decide⟩ (by decide) (by decide)

/-! ## The symbol maps -/

theorem rightInverse_of_leftInverse {f g : UInt8 → UInt8} (hinverse : Function.LeftInverse g f) :
    Function.RightInverse g f := by
  have hfinite : Finite UInt8 :=
    Finite.of_injective UInt8.toFin fun _ _ heq ↦ UInt8.eq_of_toFin_eq heq
  have hsurjective := Finite.surjective_of_injective hinverse.injective
  exact hinverse.rightInverse_of_surjective hsurjective

/-- The conventional symbol of a dual one, by the inverse of the basis change. -/
def undual (dual : ℕ) : ℕ :=
  ((List.range 8).filter fun bit ↦ dual >>> bit &&& 1 = 1).foldl
    (fun acc bit ↦ acc ^^^ [0xcc, 0xac, 0x79, 0xf0, 0xfd, 0x2e, 0x42, 0xc5].getD bit 0) 0

set_option maxRecDepth 100000 in
theorem undual_dualOf {conventional : ℕ} (hlt : conventional < 256) :
    undual (dualOf conventional).toNat = conventional := by
  have hall : ∀ symbol : Fin 256, undual (dualOf symbol.val).toNat = symbol.val := by
    decide
  exact hall ⟨conventional, hlt⟩

theorem getD_dualToConventional {conventional : ℕ} (hlt : conventional < 256) :
    dualToConventional.getD (dualOf conventional).toNat 0 = UInt8.ofNat conventional := by
  have hfill : dualToConventional = LookupTable.fill (fun symbol ↦ (dualOf symbol).toNat)
      UInt8.ofNat 256 (List.replicate 256 0) := rfl
  rw [hfill]
  apply LookupTable.getD_fill hlt
  · rw [List.length_replicate]
    exact UInt8.toNat_lt _
  · intro other hother heq
    rw [← undual_dualOf hother, heq, undual_dualOf hlt]

/-- The conventional symbols of two dual ones differ. -/
theorem dualToConventional_injective :
    Function.Injective fun symbol : UInt8 ↦ dualToConventional.getD symbol.toNat 0 := by
  have hinverse : Function.LeftInverse (fun symbol : UInt8 ↦ dualToConventional.getD symbol.toNat 0)
      (fun symbol ↦ dualOf symbol.toNat) := by
    intro symbol
    dsimp only
    rw [getD_dualToConventional symbol.toNat_lt, UInt8.ofNat_toNat]
  exact (rightInverse_of_leftInverse hinverse).injective

namespace CcsdsReedSolomon

theorem slot_injective {first second : UInt8}
    (heq : slot (Field.new fieldPoly) (Field.new rootPoly) dualToConventional first.toNat =
      slot (Field.new fieldPoly) (Field.new rootPoly) dualToConventional second.toNat) :
    first = second := by
  apply dualToConventional_injective
  dsimp only
  unfold slot at heq
  dsimp only at heq
  generalize dualToConventional.getD first.toNat 0 = a at heq ⊢
  generalize dualToConventional.getD second.toNat 0 = b at heq ⊢
  have hpower (n : ℕ) : n * rootStepInverse % order < 255 := Nat.mod_lt _ (by decide)
  by_cases ha : a = 0
  · by_cases hb : b = 0
    · rw [ha, hb]
    · rw [if_pos ha, if_neg hb] at heq
      exact absurd heq.symm (exp_ne_zero rootPoly_isPrimitive (hpower _))
  · by_cases hb : b = 0
    · rw [if_neg ha, if_pos hb] at heq
      exact absurd heq (exp_ne_zero rootPoly_isPrimitive (hpower _))
    · rw [if_neg ha, if_neg hb] at heq
      obtain ⟨hlow, hfirst⟩ := exp_log fieldPoly_isPrimitive ha
      obtain ⟨hhigh, hsecond⟩ := exp_log fieldPoly_isPrimitive hb
      have hscaled := exp_injective rootPoly_isPrimitive (hpower _) (hpower _) heq
      have hlogs : ((Field.new fieldPoly).log.getD a.toNat 0).toNat =
          ((Field.new fieldPoly).log.getD b.toNat 0).toNat := by
        change _ * 116 % 255 = _ * 116 % 255 at hscaled
        omega
      rw [← hfirst, ← hsecond, hlogs]

theorem mapTo_new (symbol : UInt8) : new.mapTo symbol =
    slot (Field.new fieldPoly) (Field.new rootPoly) dualToConventional symbol.toNat := by
  unfold mapTo new
  generalize Field.new fieldPoly = conventional
  generalize Field.new rootPoly = rooted
  exact LookupTable.getD_map_range symbol.toNat_lt

theorem mapFrom_new (symbol : UInt8) : new.mapFrom symbol =
    (LookupTable.fill (fun i ↦
        (slot (Field.new fieldPoly) (Field.new rootPoly) dualToConventional i).toNat)
      UInt8.ofNat 256 (List.replicate 256 0)).getD symbol.toNat 0 := by
  unfold mapFrom new
  dsimp only [LookupTable.fill]

theorem mapFrom_mapTo : Function.LeftInverse new.mapFrom new.mapTo := by
  intro symbol
  have hinjective (other : UInt8) := @slot_injective other symbol
  rw [mapFrom_new, mapTo_new]
  generalize Field.new fieldPoly = conventional at hinjective ⊢
  generalize Field.new rootPoly = rooted at hinjective ⊢
  let address (i : ℕ) := (slot conventional rooted dualToConventional i).toNat
  have hfits : address symbol.toNat < (List.replicate 256 (0 : UInt8)).length := by
    rw [List.length_replicate]
    exact UInt8.toNat_lt _
  have hdistinct : ∀ i < 256, address i = address symbol.toNat → i = symbol.toNat := by
    intro i hi heq
    have hi' : (UInt8.ofNat i).toNat = i := UInt8.toNat_ofNat_of_lt' hi
    have hsame := hinjective (UInt8.ofNat i)
    rw [hi'] at hsame
    rw [← hi', hsame (UInt8.toNat_inj.mp heq)]
  calc
    _ = UInt8.ofNat symbol.toNat := LookupTable.getD_fill symbol.toNat_lt hfits hdistinct
    _ = symbol := UInt8.ofNat_toNat

theorem mapTo_mapFrom : Function.RightInverse new.mapFrom new.mapTo :=
  rightInverse_of_leftInverse mapFrom_mapTo

end CcsdsReedSolomon

end Sdrmm.Ccsds
