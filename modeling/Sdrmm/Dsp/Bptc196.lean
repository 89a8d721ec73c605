import Sdrmm.Dsp.ParityCode
import Sdrmm.Lib.BinaryCode
import Sdrmm.Lib.Places

/-!
# The block product code of 196 bits

`Bptc196` of `dsp/src/fec/bptc.rs`.  The matrix has 13 rows of 15 bits behind one unused bit; an array
of bits is the function from its indices.  The columns are encoded after the rows and leave the first
nine rows as they were, so an encoded block is a codeword in every line that the decoder checks, and
single errors in the columns are gone after the first pass.
-/

namespace Sdrmm.Bptc196

open Dsp Places

def maxPasses : ℕ := 5

def codedBits : ℕ := 196

def dataBits : ℕ := 96

/-- The place of a matrix bit on the channel. -/
def interleaved (a : ℕ) : ℕ := a * 181 % codedBits

def column (c : ℕ) : List ℕ := (List.range 13).map fun r ↦ r * 15 + c + 1

def row (r : ℕ) : List ℕ := List.range' (r * 15 + 1) 15

def columns : List (List ℕ) := (List.range 15).map column

/-- The rows with parity bits of their own. -/
def rows : List (List ℕ) := (List.range 9).map row

def deinterleave (coded : ℕ → Bool) (a : ℕ) : Bool := coded (interleaved a)

/-- Decode the lines of a matrix one after the other, with the number of bits corrected. -/
def decodeLines (code : ParityCode) : List (List ℕ) → (ℕ → Bool) → Option ((ℕ → Bool) × ℕ)
  | [], matrix => some (matrix, 0)
  | line :: lines, matrix => do
    let (word, repaired) ← code.decode (gather line matrix)
    let (matrix, corrected) ← decodeLines code lines (scatter line word matrix)
    return (matrix, repaired + corrected)

def pass (matrix : ℕ → Bool) : Option ((ℕ → Bool) × ℕ) := do
  let (matrix, inColumns) ← decodeLines .hamming13_9 columns matrix
  let (matrix, inRows) ← decodeLines .hamming15_11 rows matrix
  return (matrix, inColumns + inRows)

/-- Pass over the matrix until nothing is repaired. -/
def settle : ℕ → ℕ → (ℕ → Bool) → Option ((ℕ → Bool) × ℕ)
  | 0, _, _ => none
  | passes + 1, corrected, matrix => do
    let (matrix, repaired) ← pass matrix
    if repaired = 0 then some (matrix, corrected + repaired)
    else settle passes (corrected + repaired) matrix

def dataPositions : List ℕ :=
  List.range' 4 8 ++ (List.range' 1 8).flatMap fun row ↦ List.range' (row * 15 + 1) 11

def extract (matrix : ℕ → Bool) : List Bool := gather dataPositions matrix

def decode (coded : ℕ → Bool) : Option (List Bool × ℕ) := do
  let (matrix, corrected) ← settle maxPasses 0 (deinterleave coded)
  return (extract matrix, corrected)

def encodeLines (code : ParityCode) (lines : List (List ℕ)) (matrix : ℕ → Bool) : ℕ → Bool :=
  lines.foldl (fun matrix line ↦ scatter line (code.encode (gather line matrix)) matrix) matrix

def encodeMatrix (data : List Bool) : ℕ → Bool :=
  let matrix := scatter dataPositions data fun _ ↦ false
  let matrix := encodeLines .hamming15_11 rows matrix
  encodeLines .hamming13_9 columns matrix

def encode (data : List Bool) : ℕ → Bool :=
  scatter ((List.range codedBits).map interleaved) (gather (List.range codedBits) (encodeMatrix data))
    fun _ ↦ false

/-! ## The layout -/

theorem rows_flatten : rows.flatten = List.range' 1 135 := by decide

theorem rows_nodup : rows.flatten.Nodup := rows_flatten ▸ List.nodup_range'

theorem length_column : ∀ line ∈ columns, line.length = ParityCode.hamming13_9.n := by decide

theorem length_row : ∀ line ∈ rows, line.length = ParityCode.hamming15_11.n := by decide

set_option maxRecDepth 100000 in
/-- The rows are where the columns carry data. -/
theorem rows_data : ∀ place ∈ rows.flatten,
    column ((place - 1) % 15) ∈ columns ∧ place ∈ (column ((place - 1) % 15)).take 9 := by
  have hcolumns : ∀ place ∈ rows.flatten, place ∈ (column ((place - 1) % 15)).take 9 := by
    decide
  intro place hplace
  have hc := List.mem_range.mpr (Nat.mod_lt (place - 1) (show 15 > 0 by decide))
  exact ⟨List.mem_map_of_mem hc, hcolumns place hplace⟩

theorem dataPositions_data : ∀ place ∈ dataPositions,
    row ((place - 1) / 15) ∈ rows ∧ place ∈ (row ((place - 1) / 15)).take 11 := by
  decide

theorem dataPositions_nodup : dataPositions.Nodup := by
  have hdistinct : BinaryCode.distinct dataPositions 0 = true := by decide
  exact (BinaryCode.nodup_of_distinct hdistinct).1

theorem length_dataPositions : dataPositions.length = dataBits := by decide

theorem interleaved_nodup : ((List.range codedBits).map interleaved).Nodup := by
  have hdistinct : BinaryCode.distinct ((List.range codedBits).map interleaved) 0 = true := by
    decide
  exact (BinaryCode.nodup_of_distinct hdistinct).1

set_option maxRecDepth 100000 in
/-- Every place on the channel but the first belongs to one column. -/
theorem columns_perm : (columns.flatten.map interleaved).Perm (List.range' 1 195) := by
  have hdistinct : BinaryCode.distinct (columns.flatten.map interleaved) 0 = true := by
    decide
  have hsubset : ∀ place ∈ columns.flatten.map interleaved, 1 ≤ place ∧ place < 1 + 195 := by
    decide
  have hsubperm : (columns.flatten.map interleaved).Subperm (List.range' 1 195) :=
    (BinaryCode.nodup_of_distinct hdistinct).1.subperm fun place hplace ↦
      List.mem_range'_1.mpr (hsubset place hplace)
  exact hsubperm.perm_of_length_le (by decide)

theorem columns_nodup : columns.flatten.Nodup :=
  List.Nodup.of_map interleaved (columns_perm.nodup_iff.mpr List.nodup_range')

set_option maxRecDepth 100000 in
theorem columns_lt : ∀ place ∈ columns.flatten, place < codedBits := by decide

/-! ## Encoding -/

/-- Encoded lines are codewords, with their data and everything off the lines as before. -/
theorem encodeLines_spec {code : ParityCode} {lines : List (List ℕ)} (hnodup : lines.flatten.Nodup)
    (hlength : ∀ line ∈ lines, line.length = code.n) (matrix : ℕ → Bool) :
    (∀ place ∉ lines.flatten, encodeLines code lines matrix place = matrix place) ∧
    ∀ line ∈ lines, code.Valid (gather line (encodeLines code lines matrix)) ∧
      ∀ place ∈ line.take code.k, encodeLines code lines matrix place = matrix place := by
  induction lines generalizing matrix with
  | nil => exact ⟨fun _ _ ↦ rfl, nofun⟩
  | cons line lines ih =>
    obtain ⟨hline, hlines, hdisjoint⟩ := List.nodup_append'.mp hnodup
    have hword : (gather line matrix).length = code.n := by
      rw [gather, List.length_map]
      exact hlength line List.mem_cons_self
    have hencoded : (code.encode (gather line matrix)).length = line.length := by
      rw [ParityCode.length_encode hword, hlength line List.mem_cons_self]
    have hgather := gather_scatter hline hencoded matrix
    obtain ⟨hoff, hon⟩ := ih hlines (fun other hother ↦ hlength other (List.mem_cons_of_mem line hother))
      (scatter line (code.encode (gather line matrix)) matrix)
    change (∀ place ∉ line ++ lines.flatten, encodeLines code lines _ place = matrix place) ∧
      ∀ other ∈ line :: lines, code.Valid (gather other (encodeLines code lines _)) ∧
        ∀ place ∈ other.take code.k, encodeLines code lines _ place = matrix place
    -- The lines behind leave this one as it is.
    have hkept : ∀ place ∈ line, encodeLines code lines
        (scatter line (code.encode (gather line matrix)) matrix) place =
          scatter line (code.encode (gather line matrix)) matrix place :=
      fun place hplace ↦ hoff place (hdisjoint hplace)
    constructor
    · intro place hplace
      rw [List.mem_append, not_or] at hplace
      rw [hoff place hplace.2, scatter_of_notMem hplace.1]
    · intro other hother
      rcases List.mem_cons.mp hother with rfl | hother
      · rw [gather_congr_iff.mpr hkept, hgather]
        refine ⟨ParityCode.encode_valid hword, ?_⟩
        intro place hplace
        rw [hkept place (List.mem_of_mem_take hplace)]
        obtain ⟨i, hi, rfl⟩ := List.mem_take_iff_getElem.mp hplace
        have hbit := ParityCode.encode_data hword (show i < code.k by omega)
        rw [← hgather, gather, gather, List.getD_eq_getElem?_getD, List.getD_eq_getElem?_getD,
          List.getElem?_map, List.getElem?_map, List.getElem?_eq_getElem (by omega)] at hbit
        exact hbit
      · obtain ⟨hvalid, hdata⟩ := hon other hother
        refine ⟨hvalid, ?_⟩
        intro place hplace
        have hmem : place ∈ lines.flatten :=
          List.mem_flatten.mpr ⟨other, hother, List.mem_of_mem_take hplace⟩
        rw [hdata place hplace, scatter_of_notMem fun hline ↦ hdisjoint hline hmem]

/-- The matrix of a block: every line that the decoder checks is a codeword. -/
structure Block (matrix : ℕ → Bool) : Prop where
  columns : ∀ line ∈ columns, ParityCode.hamming13_9.Valid (gather line matrix)
  rows : ∀ line ∈ rows, ParityCode.hamming15_11.Valid (gather line matrix)

theorem encodeMatrix_spec {data : List Bool} (hdata : data.length = dataBits) :
    Block (encodeMatrix data) ∧ extract (encodeMatrix data) = data := by
  have hrows := (encodeLines_spec rows_nodup length_row (scatter dataPositions data fun _ ↦ false)).2
  have hcolumns := (encodeLines_spec columns_nodup length_column
    (encodeLines .hamming15_11 rows (scatter dataPositions data fun _ ↦ false))).2
  have hkept : ∀ place ∈ rows.flatten, encodeMatrix data place =
      encodeLines .hamming15_11 rows (scatter dataPositions data fun _ ↦ false) place := by
    intro place hplace
    obtain ⟨hcolumn, htake⟩ := rows_data place hplace
    exact (hcolumns _ hcolumn).2 place htake
  refine ⟨⟨fun line hline ↦ (hcolumns line hline).1, ?_⟩, ?_⟩
  · intro line hline
    rw [gather_congr_iff.mpr fun place hplace ↦
      hkept place (List.mem_flatten.mpr ⟨line, hline, hplace⟩)]
    exact (hrows line hline).1
  · have hlength : data.length = dataPositions.length := hdata.trans length_dataPositions.symm
    have hread := gather_scatter dataPositions_nodup hlength fun _ ↦ false
    rw [extract, ← hread]
    apply gather_congr_iff.mpr
    intro place hplace
    obtain ⟨hrow, htake⟩ := dataPositions_data place hplace
    have hmem : place ∈ rows.flatten :=
      List.mem_flatten.mpr ⟨_, hrow, List.mem_of_mem_take htake⟩
    rw [hread, hkept place hmem]
    exact (hrows _ hrow).2 place htake

theorem deinterleave_encode (data : List Bool) {place : ℕ} (hplace : place < codedBits) :
    encode data (interleaved place) = encodeMatrix data place := by
  have hlength : (gather (List.range codedBits) (encodeMatrix data)).length =
      ((List.range codedBits).map interleaved).length := by
    rw [gather, List.length_map, List.length_map]
  have hread := gather_scatter interleaved_nodup hlength fun _ ↦ false
  rw [gather, List.map_map] at hread
  exact gather_congr_iff.mp hread place (List.mem_range.mpr hplace)

/-! ## Decoding -/

/-- Lines in which nothing was repaired are codewords and were left alone. -/
theorem decodeLines_quiet {code : ParityCode} {lines : List (List ℕ)} {matrix decoded : ℕ → Bool}
    (hdecode : decodeLines code lines matrix = some (decoded, 0)) :
    decoded = matrix ∧ ∀ line ∈ lines, code.Valid (gather line matrix) := by
  induction lines generalizing matrix with
  | nil => exact ⟨(congrArg Prod.fst (Option.some.inj hdecode)).symm, nofun⟩
  | cons line lines ih =>
    obtain ⟨⟨word, repaired⟩, hword, hrest⟩ := Option.bind_eq_some_iff.mp hdecode
    obtain ⟨⟨after, corrected⟩, hlines, hresult⟩ := Option.bind_eq_some_iff.mp hrest
    obtain ⟨rfl, hcount⟩ := Prod.mk.inj (Option.some.inj hresult)
    obtain ⟨rfl, rfl⟩ := Nat.add_eq_zero_iff.mp hcount
    obtain ⟨rfl, hvalid⟩ := ParityCode.decode_quiet hword
    rw [scatter_gather] at hlines
    obtain ⟨hsame, hall⟩ := ih hlines
    refine ⟨hsame, ?_⟩
    intro other hother
    rcases List.mem_cons.mp hother with rfl | hother
    · exact hvalid
    · exact hall other hother

theorem decodeLines_valid {code : ParityCode} {lines : List (List ℕ)} {matrix : ℕ → Bool}
    (hvalid : ∀ line ∈ lines, code.Valid (gather line matrix)) :
    decodeLines code lines matrix = some (matrix, 0) := by
  induction lines with
  | nil => rfl
  | cons line lines ih =>
    rw [decodeLines, ParityCode.decode_valid (hvalid line List.mem_cons_self), Option.bind_eq_bind,
      Option.bind_some]
    dsimp only
    rw [scatter_gather, ih fun other hother ↦ hvalid other (List.mem_cons_of_mem line hother)]
    rfl

/-- A word with at most one bit off a codeword is decoded to it, and the bits off are counted. -/
theorem decode_line {code : ParityCode} (hseparates : code.Separates) {line : List ℕ}
    (hlength : line.length = code.n) {matrix clean : ℕ → Bool}
    (hvalid : code.Valid (gather line clean))
    (hflips : line.countP (fun place ↦ matrix place != clean place) ≤ 1) :
    code.decode (gather line matrix) =
      some (gather line clean, line.countP fun place ↦ matrix place != clean place) := by
  rcases Nat.le_one_iff_eq_zero_or_eq_one.mp hflips with hnone | hone
  · rw [gather_eq_of_countP hnone, hnone, ParityCode.decode_valid hvalid]
  · obtain ⟨i, hi, hword⟩ := gather_eq_modify hone
    have hclean : (gather line clean).length = code.n := by rw [gather, List.length_map, hlength]
    rw [hword, hone, ParityCode.decode_modify hseparates hclean hvalid (hlength ▸ hi)]

/-- Disjoint lines with at most one bit off each are all repaired. -/
theorem decodeLines_repairs {code : ParityCode} (hseparates : code.Separates)
    {lines : List (List ℕ)} (hnodup : lines.flatten.Nodup)
    (hlength : ∀ line ∈ lines, line.length = code.n) {matrix clean : ℕ → Bool}
    (hvalid : ∀ line ∈ lines, code.Valid (gather line clean))
    (hflips : ∀ line ∈ lines, line.countP (fun place ↦ matrix place != clean place) ≤ 1) :
    ∃ decoded, decodeLines code lines matrix =
        some (decoded, lines.flatten.countP fun place ↦ matrix place != clean place) ∧
      (∀ place ∈ lines.flatten, decoded place = clean place) ∧
      ∀ place ∉ lines.flatten, decoded place = matrix place := by
  induction lines generalizing matrix with
  | nil => exact ⟨matrix, rfl, nofun, fun _ _ ↦ rfl⟩
  | cons line lines ih =>
    obtain ⟨hline, hlines, hdisjoint⟩ := List.nodup_append'.mp hnodup
    have hdecode := decode_line hseparates (hlength line List.mem_cons_self)
      (hvalid line List.mem_cons_self) (hflips line List.mem_cons_self)
    have hclean : gather line (scatter line (gather line clean) matrix) = gather line clean :=
      gather_scatter hline (List.length_map _) matrix
    have hoff : ∀ place ∈ lines.flatten,
        scatter line (gather line clean) matrix place = matrix place :=
      fun place hplace ↦ scatter_of_notMem (fun hmem ↦ hdisjoint hmem hplace) _ _
    have hcount (other : List ℕ) (hother : ∀ place ∈ other, place ∈ lines.flatten) :
        other.countP (fun place ↦ scatter line (gather line clean) matrix place != clean place) =
          other.countP fun place ↦ matrix place != clean place := by
      apply List.countP_congr
      intro place hplace
      rw [hoff place (hother place hplace)]
    obtain ⟨decoded, hrun, hon, hrest⟩ := @ih hlines
      (fun other hother ↦ hlength other (List.mem_cons_of_mem line hother))
      (scatter line (gather line clean) matrix)
      (fun other hother ↦ hvalid other (List.mem_cons_of_mem line hother)) (by
        intro other hother
        rw [hcount other fun place hplace ↦ List.mem_flatten.mpr ⟨other, hother, hplace⟩]
        exact hflips other (List.mem_cons_of_mem line hother))
    rw [hcount _ fun _ hplace ↦ hplace] at hrun
    refine ⟨decoded, ?_, ?_, ?_⟩
    · rw [decodeLines, hdecode, Option.bind_eq_bind, Option.bind_some]
      dsimp only
      rw [hrun, List.flatten_cons, List.countP_append]
      rfl
    · intro place hplace
      rcases List.mem_append.mp hplace with hplace | hplace
      · rw [hrest place fun hmem ↦ hdisjoint hplace hmem]
        exact gather_congr_iff.mp hclean place hplace
      · exact hon place hplace
    · intro place hplace
      rw [List.flatten_cons, List.mem_append, not_or] at hplace
      rw [hrest place hplace.2, scatter_of_notMem hplace.1]

theorem Block.congr {matrix clean : ℕ → Bool} (hblock : Block clean)
    (hsame : ∀ place ∈ Bptc196.columns.flatten, matrix place = clean place) : Block matrix := by
  constructor
  · intro line hline
    rw [gather_congr_iff.mpr fun place hplace ↦
      hsame place (List.mem_flatten.mpr ⟨line, hline, hplace⟩)]
    exact hblock.columns line hline
  · intro line hline
    have hgather : gather line matrix = gather line clean := by
      apply gather_congr_iff.mpr
      intro place hplace
      obtain ⟨hcolumn, htake⟩ := rows_data place (List.mem_flatten.mpr ⟨line, hline, hplace⟩)
      exact hsame place (List.mem_flatten.mpr ⟨_, hcolumn, List.mem_of_mem_take htake⟩)
    rw [hgather]
    exact hblock.rows line hline

theorem pass_block {matrix : ℕ → Bool} (hblock : Block matrix) : pass matrix = some (matrix, 0) := by
  rw [pass, decodeLines_valid hblock.columns, Option.bind_eq_bind, Option.bind_some]
  dsimp only
  rw [decodeLines_valid hblock.rows]
  rfl

/-- The columns are repaired by the first pass, after which the rows are codewords. -/
theorem pass_repairs {matrix clean : ℕ → Bool} (hclean : Block clean)
    (hflips : ∀ line ∈ columns, line.countP (fun place ↦ matrix place != clean place) ≤ 1) :
    ∃ repaired, pass matrix =
        some (repaired, columns.flatten.countP fun place ↦ matrix place != clean place) ∧
      ∀ place ∈ columns.flatten, repaired place = clean place := by
  obtain ⟨repaired, hrun, hon, -⟩ := decodeLines_repairs ParityCode.hamming13_9_separates
    columns_nodup length_column hclean.columns hflips
  refine ⟨repaired, ?_, hon⟩
  rw [pass, hrun, Option.bind_eq_bind, Option.bind_some]
  dsimp only
  rw [decodeLines_valid (hclean.congr hon).rows]
  rfl

theorem settle_repairs {matrix clean : ℕ → Bool} (hclean : Block clean)
    (hflips : ∀ line ∈ columns, line.countP (fun place ↦ matrix place != clean place) ≤ 1) :
    ∃ settled, settle maxPasses 0 matrix =
        some (settled, columns.flatten.countP fun place ↦ matrix place != clean place) ∧
      ∀ place ∈ columns.flatten, settled place = clean place := by
  obtain ⟨repaired, hpass, hon⟩ := pass_repairs hclean hflips
  refine ⟨repaired, ?_, hon⟩
  rw [maxPasses, settle, hpass, Option.bind_eq_bind, Option.bind_some]
  dsimp only
  rw [Nat.zero_add]
  split
  · rfl
  · rw [settle, pass_block (hclean.congr hon), Option.bind_eq_bind, Option.bind_some]
    rfl

theorem settle_block {passes corrected : ℕ} {matrix settled : ℕ → Bool} {n : ℕ}
    (hsettle : settle passes corrected matrix = some (settled, n)) : Block settled := by
  induction passes generalizing corrected matrix with
  | zero => exact nomatch hsettle
  | succ passes ih =>
    obtain ⟨⟨after, repaired⟩, hpass, hrest⟩ := Option.bind_eq_some_iff.mp hsettle
    dsimp only at hrest
    split at hrest
    · rename_i hquiet
      obtain ⟨rfl, -⟩ := Prod.mk.inj (Option.some.inj hrest)
      rw [hquiet] at hpass
      obtain ⟨⟨inColumns, first⟩, hcolumns, hlater⟩ := Option.bind_eq_some_iff.mp hpass
      obtain ⟨⟨inRows, second⟩, hrows, hresult⟩ := Option.bind_eq_some_iff.mp hlater
      obtain ⟨rfl, hcount⟩ := Prod.mk.inj (Option.some.inj hresult)
      obtain ⟨rfl, rfl⟩ := Nat.add_eq_zero_iff.mp hcount
      obtain ⟨rfl, hvalid⟩ := decodeLines_quiet hcolumns
      obtain ⟨rfl, hvalidRows⟩ := decodeLines_quiet hrows
      exact ⟨hvalid, hvalidRows⟩
    · exact ih hrest

/-- A block comes back as it was encoded, with at most one flipped bit in each column repaired and
counted, and whatever is decoded is the data of a matrix whose lines are codewords. -/
theorem bptc196_corrects :
    (∀ data, data.length = dataBits → decode (encode data) = some (data, 0)) ∧
    (∀ data flipped, data.length = dataBits →
      (∀ c < 15, (column c).countP (fun a ↦ flipped (interleaved a)) ≤ 1) →
      decode (fun place ↦ encode data place ^^ flipped place) =
        some (data, (List.range' 1 195).countP flipped)) ∧
    ∀ coded data n, decode coded = some (data, n) → ∃ matrix,
      (∀ c < 15, ParityCode.hamming13_9.Valid (gather (column c) matrix)) ∧
      (∀ r < 9, ParityCode.hamming15_11.Valid (gather (row r) matrix)) ∧
      gather dataPositions matrix = data := by
  have hrepairs : ∀ data flipped, data.length = dataBits →
      (∀ c < 15, (column c).countP (fun a ↦ flipped (interleaved a)) ≤ 1) →
      decode (fun place ↦ encode data place ^^ flipped place) =
        some (data, (List.range' 1 195).countP flipped) := by
    intro data flipped hdata hflips
    obtain ⟨hblock, hextract⟩ := encodeMatrix_spec hdata
    have hdiffer : ∀ place ∈ columns.flatten,
        (deinterleave (fun place ↦ encode data place ^^ flipped place) place !=
          encodeMatrix data place) = flipped (interleaved place) := by
      intro place hplace
      rw [deinterleave, deinterleave_encode data (columns_lt place hplace)]
      cases encodeMatrix data place <;> cases flipped (interleaved place) <;> rfl
    have hcount (line : List ℕ) (hline : ∀ place ∈ line, place ∈ columns.flatten) :
        line.countP (fun place ↦
          deinterleave (fun place ↦ encode data place ^^ flipped place) place !=
            encodeMatrix data place) = line.countP fun a ↦ flipped (interleaved a) := by
      apply List.countP_congr
      intro place hplace
      rw [hdiffer place (hline place hplace)]
    have hsingle : ∀ line ∈ columns, line.countP (fun place ↦
        deinterleave (fun place ↦ encode data place ^^ flipped place) place !=
          encodeMatrix data place) ≤ 1 := by
      intro line hline
      rw [hcount line fun place hplace ↦ List.mem_flatten.mpr ⟨line, hline, hplace⟩]
      obtain ⟨c, hc, rfl⟩ := List.mem_map.mp hline
      exact hflips c (List.mem_range.mp hc)
    obtain ⟨settled, hsettle, hon⟩ := settle_repairs hblock hsingle
    have hdecoded : extract settled = data := by
      rw [← hextract]
      apply gather_congr_iff.mpr
      intro place hplace
      obtain ⟨hrow, htake⟩ := dataPositions_data place hplace
      obtain ⟨hcolumn, hdata⟩ := rows_data place
        (List.mem_flatten.mpr ⟨_, hrow, List.mem_of_mem_take htake⟩)
      exact hon place (List.mem_flatten.mpr ⟨_, hcolumn, List.mem_of_mem_take hdata⟩)
    rw [decode, hsettle, Option.bind_eq_bind, Option.bind_some]
    dsimp only
    rw [hdecoded, hcount _ fun _ hplace ↦ hplace, ← columns_perm.countP_eq, List.countP_map]
    rfl
  refine ⟨?_, hrepairs, ?_⟩
  · intro data hdata
    have hclean := hrepairs data (fun _ ↦ false) hdata fun c _ ↦ by
      rw [List.countP_false]
      exact Nat.zero_le 1
    rw [List.countP_false] at hclean
    simp only [Bool.xor_false] at hclean
    exact hclean
  · intro coded data n hdecode
    obtain ⟨⟨settled, corrected⟩, hsettle, hresult⟩ := Option.bind_eq_some_iff.mp hdecode
    have hblock := settle_block hsettle
    refine ⟨settled, ?_, ?_, congrArg Prod.fst (Option.some.inj hresult)⟩
    · intro c hc
      exact hblock.columns _ (List.mem_map_of_mem (List.mem_range.mpr hc))
    · intro r hr
      exact hblock.rows _ (List.mem_map_of_mem (List.mem_range.mpr hr))

/-- Two flipped bits in different columns, and the unused one. -/
def scattered (place : ℕ) : Bool := place == 0 || place == 3 || place == 44

theorem bptc196_corrects_scattered :
    decode (fun place ↦ encode (List.replicate 96 true) place ^^ scattered place) =
      some (List.replicate 96 true, 2) := by
  have hflips : ∀ c < 15, (column c).countP (fun a ↦ scattered (interleaved a)) ≤ 1 := by
    decide
  have hcount : (List.range' 1 195).countP scattered = 2 := by decide
  rw [bptc196_corrects.2.1 (List.replicate 96 true) scattered List.length_replicate hflips, hcount]

end Sdrmm.Bptc196
