import Mathlib.Tactic
import Mathlib.Data.List.Sort

/-!
# The LDPC decoder of FT8 and FT4

The decoder of `channels/src/weak_signal/ftx/ldpc.rs`: belief propagation, and, where it does not get to
a codeword, a search through ordered statistics that flips up to three of the most reliable bits.  The
search only looks at combinations whose checksum fits, which it finds through an index of its rows by
their syndromes.  The index is kept from one call to the next.

Floats are exact rationals, arrays are lists or functions of the index, and the three words of a bit set
are one number.  A row of the index that is not there is `none`, in the source `NO_ROW`.  The order in
which `sort_unstable_by` leaves bits that are equally reliable is not specified; the sorting function is
a parameter.
-/

namespace Sdrmm.Ftx

def N : ℕ := 174

def K : ℕ := 91

def M : ℕ := 83

def payloadBits : ℕ := 77

def crcPoly : ℕ := 0x2757

def crcBits : ℕ := 14

def minSumScale : ℚ := 4 / 5

def hopelessAfter : ℕ := 5

def hopelessChecks : ℕ := 25

/-- `f32::MAX`. -/
def floatMax : ℚ := 2 ^ 128 - 2 ^ 104

/-- The three checks that each bit of a codeword takes part in. -/
def columnChecks : List (ℕ × ℕ × ℕ) :=
  [(15, 44, 72), (24, 50, 61), (32, 57, 77), (0, 43, 44), (1, 6, 60), (2, 5, 53), (3, 34, 47),
   (4, 12, 20), (7, 55, 78), (8, 63, 68), (9, 18, 65), (10, 35, 59), (11, 36, 57), (13, 31, 42),
   (14, 62, 79), (16, 27, 76), (17, 73, 82), (21, 52, 80), (22, 29, 33), (23, 30, 39),
   (25, 40, 75), (26, 56, 69), (28, 48, 64), (2, 37, 77), (4, 38, 81), (45, 49, 72),
   (50, 51, 73), (54, 70, 71), (43, 66, 71), (42, 67, 77), (0, 31, 58), (1, 5, 70), (3, 15, 53),
   (6, 64, 66), (7, 29, 41), (8, 21, 30), (9, 17, 75), (10, 22, 81), (11, 27, 60), (12, 51, 78),
   (13, 49, 50), (14, 80, 82), (16, 28, 59), (18, 32, 63), (19, 25, 72), (20, 33, 39),
   (23, 26, 76), (24, 54, 57), (34, 52, 65), (35, 47, 67), (36, 45, 74), (37, 44, 46),
   (38, 56, 68), (40, 55, 61), (19, 48, 52), (45, 51, 62), (44, 69, 74), (26, 34, 79),
   (0, 14, 29), (1, 67, 79), (2, 35, 50), (3, 27, 50), (4, 30, 55), (5, 19, 36), (6, 39, 81),
   (7, 59, 68), (8, 9, 48), (10, 43, 56), (11, 38, 58), (12, 23, 54), (13, 20, 64), (15, 70, 77),
   (16, 29, 75), (17, 24, 79), (18, 60, 82), (21, 37, 76), (22, 40, 49), (6, 25, 57),
   (28, 31, 80), (32, 39, 72), (17, 33, 47), (12, 41, 63), (4, 25, 42), (46, 68, 71),
   (53, 54, 69), (44, 61, 67), (9, 62, 66), (13, 65, 71), (21, 59, 73), (34, 38, 78),
   (0, 45, 63), (0, 23, 65), (1, 4, 69), (2, 30, 64), (3, 48, 57), (0, 3, 4), (5, 59, 66),
   (6, 31, 74), (7, 47, 81), (8, 34, 40), (9, 38, 61), (10, 13, 60), (11, 70, 73), (12, 22, 77),
   (10, 34, 54), (14, 15, 78), (6, 8, 15), (16, 53, 62), (17, 49, 56), (18, 29, 46),
   (19, 63, 79), (20, 27, 68), (21, 24, 42), (12, 21, 36), (1, 46, 50), (22, 53, 73),
   (25, 33, 71), (26, 35, 36), (20, 35, 62), (28, 39, 43), (18, 25, 56), (2, 45, 81),
   (13, 14, 57), (32, 51, 52), (29, 42, 51), (5, 8, 51), (26, 32, 64), (24, 68, 72),
   (37, 54, 82), (19, 38, 76), (17, 28, 55), (31, 47, 70), (41, 50, 58), (27, 43, 78),
   (33, 59, 61), (30, 44, 60), (45, 67, 76), (5, 23, 75), (7, 9, 77), (39, 40, 69), (16, 49, 52),
   (41, 65, 67), (3, 21, 71), (35, 63, 80), (12, 28, 46), (1, 7, 80), (55, 66, 72), (4, 37, 49),
   (11, 37, 63), (58, 71, 79), (2, 25, 78), (44, 75, 80), (0, 64, 73), (6, 17, 76), (10, 55, 58),
   (13, 38, 53), (15, 36, 65), (9, 27, 54), (14, 59, 69), (16, 24, 81), (19, 29, 30),
   (11, 66, 67), (22, 74, 79), (26, 31, 61), (23, 68, 74), (18, 20, 70), (33, 52, 60),
   (34, 45, 46), (32, 58, 75), (39, 42, 82), (40, 41, 62), (48, 74, 82), (19, 43, 47),
   (41, 48, 56)]

/-! ## The code -/

structure Code where
  /-- The bits of each check, as many as its degree. -/
  checks : List (List ℕ)
  parity : List ℕ
  crcSyndrome : List ℕ

/-- The bits of the code with the checks that they take part in. -/
def edges : List (ℕ × ℕ) :=
  columnChecks.zipIdx.flatMap fun (rows, bit) ↦ [(bit, rows.1), (bit, rows.2.1), (bit, rows.2.2)]

def buildChecks : List (List ℕ) :=
  edges.foldl (fun checks (bit, row) ↦ checks.modify row (· ++ [bit])) (List.replicate M [])

/-- The two halves of each check: its parity bits and its message bits. -/
def halves : List (ℕ × ℕ) :=
  edges.foldl (fun rows (bit, row) ↦
    if bit < K then rows.modify row fun (left, right) ↦ (left, right ||| 1 <<< (K - 1 - bit))
    else rows.modify row fun (left, right) ↦ (left ||| 1 <<< (bit - K), right))
    (List.replicate M (0, 0))

def swap (rows : List (ℕ × ℕ)) (i j : ℕ) : List (ℕ × ℕ) :=
  (rows.set i (rows.getD j (0, 0))).set j (rows.getD i (0, 0))

/-- Clear a bit in every row but the pivot. -/
def clear (rows : List (ℕ × ℕ)) (pivot bit : ℕ) : List (ℕ × ℕ) :=
  let pivotRow := rows.getD pivot (0, 0)
  rows.zipIdx.map fun ((bits, tag), row) ↦
    if row ≠ pivot ∧ bits.testBit bit then (bits ^^^ pivotRow.1, tag ^^^ pivotRow.2) else (bits, tag)

/-- The first row from `start` on with a bit. -/
def findRow (rows : List (ℕ × ℕ)) (start bit : ℕ) : Option ℕ :=
  (List.range' start (rows.length - start)).find? fun row ↦ (rows.getD row (0, 0)).1.testBit bit

def parityRows : List ℕ :=
  ((List.range M).foldl (fun rows pivot ↦
    match findRow rows pivot pivot with
    | none => rows
    | some found => clear (swap rows pivot found) pivot pivot) halves).map Prod.snd

def crc14 (payload : ℕ) : ℕ :=
  (List.range (payloadBits + 5)).foldl (fun register index ↦
    let bit := if index < payloadBits then (payload >>> (payloadBits - 1 - index)) &&& 1 else 0
    let feedback := ((register >>> (crcBits - 1)) &&& 1) ^^^ bit
    let shifted := (register <<< 1) &&& (1 <<< crcBits - 1)
    if feedback = 1 then shifted ^^^ crcPoly else shifted) 0

/-- The syndrome that a message bit leaves in the checksum. -/
def bitSyndrome (bit : ℕ) : ℕ :=
  if bit < payloadBits then crc14 (1 <<< (payloadBits - 1 - bit)) else 1 <<< (K - 1 - bit)

def Code.build : Code where
  checks := buildChecks
  parity := parityRows
  crcSyndrome := (List.range K).map bitSyndrome

def payloadOf (codeword : List Bool) : Option ℕ :=
  let message := (codeword.take K).foldl (fun acc bit ↦ (acc <<< 1) ||| bit.toNat) 0
  let payload := message >>> crcBits
  if crc14 payload = message &&& (1 <<< crcBits - 1) then some payload else none

/-! ## Belief propagation -/

structure Belief where
  posterior : ℕ → ℚ
  messages : ℕ → ℕ → ℚ

/-- What is known of the incoming values of a check: the two smallest magnitudes, where the smallest is,
and the sign. -/
structure Incoming where
  first : ℚ
  second : ℚ
  weakest : ℕ
  negative : Bool

def Incoming.add (state : Incoming) (edge : ℕ) (value : ℚ) : Incoming :=
  let negative := xor state.negative (decide (value < 0))
  let magnitude := |value|
  if magnitude < state.first then ⟨magnitude, state.first, edge, negative⟩
  else if magnitude < state.second then { state with second := magnitude, negative := negative }
  else { state with negative := negative }

/-- The loop over the edges of a check that sends its messages. -/
def sendMessages (incoming : ℕ → ℚ) (known : Incoming) (check : ℕ) (belief : Belief)
    (members : List ℕ) : Belief :=
  members.zipIdx.foldl (fun belief (member, edge) ↦
    let magnitude := minSumScale * if edge = known.weakest then known.second else known.first
    let message := if xor known.negative (decide (incoming edge < 0)) then -magnitude else magnitude
    { posterior := Function.update belief.posterior member (incoming edge + message)
      messages := Function.update belief.messages check
        (Function.update (belief.messages check) edge message) }) belief

def updateCheck (code : Code) (belief : Belief) (check : ℕ) : Belief :=
  let members := code.checks.getD check []
  let incoming := fun edge ↦
    belief.posterior (members.getD edge 0) - belief.messages check edge
  let known := (List.range members.length).foldl (fun known edge ↦ known.add edge (incoming edge))
    ⟨floatMax, floatMax, 0, false⟩
  sendMessages incoming known check belief members

def unsatisfiedChecks (code : Code) (hard : List Bool) : ℕ :=
  code.checks.countP fun members ↦
    members.foldl (fun acc bit ↦ xor acc (hard.getD bit false)) false

/-- The iterations from one on, with the fewest unsatisfied checks so far and how long that has not
changed. -/
def iterate (code : Code) : ℕ → ℕ → Belief → ℕ → ℕ → Belief × Option (List Bool)
  | 0, _, belief, _, _ => (belief, none)
  | left + 1, iteration, belief, fewest, stale =>
      let belief := (List.range M).foldl (updateCheck code) belief
      let hard := (List.range N).map fun bit ↦ decide (belief.posterior bit < 0)
      let unsatisfied := unsatisfiedChecks code hard
      if unsatisfied = 0 then (belief, some hard)
      else if iteration ≥ hopelessAfter ∧ unsatisfied > hopelessChecks then (belief, none)
      else if unsatisfied < fewest then iterate code left (iteration + 1) belief unsatisfied 0
      else if stale + 1 ≥ 6 ∧ iteration ≥ 12 then (belief, none)
      else iterate code left (iteration + 1) belief fewest (stale + 1)

/-- `belief_propagation`, which starts by overwriting what was there. -/
def beliefPropagation (code : Code) (_ : Belief) (llr : ℕ → ℚ) (iterations : ℕ) :
    Belief × Option (List Bool) :=
  iterate code iterations 0 ⟨fun bit ↦ -llr bit, fun _ _ ↦ 0⟩ M 0

/-! ## Ordered statistics -/

structure Osd where
  order : List ℕ
  reliability : List ℚ
  rows : List ℕ
  syndromes : List ℕ
  heads : ℕ → Option ℕ
  next : ℕ → Option ℕ

namespace Osd

def new : Osd where
  order := List.replicate N 0
  reliability := List.replicate N 0
  rows := List.replicate K 0
  syndromes := List.replicate K 0
  heads _ := none
  next _ := none

/-- Whether a message bit is in a bit of the codeword. -/
def contains (code : Code) (row natural : ℕ) : Bool :=
  if natural < K then natural = row else (code.parity.getD (natural - K) 0).testBit (K - 1 - row)

/-- A row of the generator with the bits in a given order. -/
def rowBits (code : Code) (order : List ℕ) (row : ℕ) : ℕ :=
  order.zipIdx.foldl (fun bits (natural, position) ↦
    if contains code row natural then bits ||| 1 <<< position else bits) 0

/-- The rows of the generator, each with the syndrome of its message bit.  The source goes through the
positions first and through the rows for each of them. -/
def permutedGenerator (code : Code) (order : List ℕ) : List (ℕ × ℕ) :=
  ((List.range K).map (rowBits code order)).zip code.crcSyndrome

/-- One position of the elimination, with the positions that pivots were found at so far. -/
def eliminateStep (state : List (ℕ × ℕ) × List ℕ) (position : ℕ) : List (ℕ × ℕ) × List ℕ :=
  let pivots := state.2.length
  if pivots = K then state
  else
    match findRow state.1 pivots position with
    | none => state
    | some found => (clear (swap state.1 pivots found) pivots position, state.2 ++ [position])

def eliminate (rows : List (ℕ × ℕ)) : List (ℕ × ℕ) × Option (List ℕ) :=
  let state := (List.range N).foldl eliminateStep (rows, [])
  (state.1, if state.2.length = K then some state.2 else none)

def reencode (rows : List (ℕ × ℕ)) (hard : ℕ) (basis : List ℕ) : ℕ × ℕ :=
  (rows.zip basis).foldl (fun (codeword, syndrome) (row, position) ↦
    if hard.testBit position then (codeword ^^^ row.1, syndrome ^^^ row.2)
    else (codeword, syndrome)) (0, 0)

/-- Put one row at the head of the rows with its syndrome. -/
def indexRow (syndromes : List ℕ) (index : (ℕ → Option ℕ) × (ℕ → Option ℕ)) (row : ℕ) :
    (ℕ → Option ℕ) × (ℕ → Option ℕ) :=
  let syndrome := syndromes.getD row 0
  (Function.update index.1 syndrome (some row), Function.update index.2 row (index.1 syndrome))

def indexSyndromes (o : Osd) : Osd :=
  let cleared := o.syndromes.foldl (fun heads syndrome ↦ Function.update heads syndrome none) o.heads
  let index := (List.range K).reverse.foldl (indexRow o.syndromes) (cleared, o.next)
  { o with heads := index.1, next := index.2 }

/-- The rows from one on, in at most `fuel` steps. -/
def chain (next : ℕ → Option ℕ) : ℕ → Option ℕ → List ℕ
  | 0, _ => []
  | _ + 1, none => []
  | fuel + 1, some row => row :: chain next fuel (next row)

def rowsWith (o : Osd) (syndrome : ℕ) : List ℕ := chain o.next K (o.heads syndrome)

def row (o : Osd) (i : ℕ) : ℕ := o.rows.getD i 0

def syndromeOf (o : Osd) (i : ℕ) : ℕ := o.syndromes.getD i 0

/-- The errors that the search considers, in its order. -/
def candidates (o : Osd) (error syndrome maxOrder : ℕ) : List ℕ :=
  (if syndrome = 0 then [error] else []) ++
    (o.rowsWith syndrome).map (fun first ↦ error ^^^ o.row first) ++
    if 2 ≤ maxOrder then
      (List.range K).flatMap fun first ↦
        let single := error ^^^ o.row first
        let target := syndrome ^^^ o.syndromeOf first
        ((o.rowsWith target).filter (· > first)).map (fun second ↦ single ^^^ o.row second) ++
          if maxOrder < 3 then []
          else
            (List.range' (first + 1) (K - (first + 1))).flatMap fun second ↦
              let pair := single ^^^ o.row second
              let target := target ^^^ o.syndromeOf second
              ((o.rowsWith target).filter (· > second)).map fun third ↦ pair ^^^ o.row third
    else []

/-- The reliabilities at some positions added up, unless they get to the limit. -/
def addUp (reliability : List ℚ) (limit : ℚ) : List ℕ → ℚ → Option ℚ
  | [], total => some total
  | position :: positions, total =>
      let total := total + reliability.getD position 0
      if limit ≤ total then none else addUp reliability limit positions total

def distance (o : Osd) (error : ℕ) (limit : ℚ) : Option ℚ :=
  addUp o.reliability limit ((List.range (3 * 64)).filter error.testBit) 0

def consider (o : Osd) (best : Option (ℚ × ℕ)) (candidate : ℕ) : Option (ℚ × ℕ) :=
  match o.distance candidate ((best.map Prod.fst).getD floatMax) with
  | some distance => some (distance, candidate)
  | none => best

def search (o : Osd) (error syndrome maxOrder : ℕ) : Option ℕ :=
  ((o.candidates error syndrome maxOrder).foldl o.consider none).map Prod.snd

section Decode

variable (sortUnstable : (ℕ → ℕ → Bool) → List ℕ → List ℕ) (code : Code)

/-- The bits from the most reliable on. -/
def orderOf (llr : ℕ → ℚ) : List ℕ :=
  sortUnstable (fun a b ↦ decide (|llr b| ≤ |llr a|)) (List.range N)

def hardOf (llr : ℕ → ℚ) (order : List ℕ) : ℕ :=
  order.zipIdx.foldl (fun hard (natural, position) ↦
    if 0 < llr natural then hard ||| 1 <<< position else hard) 0

/-- What `decode` keeps of an order and its reduced rows. -/
def load (o : Osd) (llr : ℕ → ℚ) (order : List ℕ) (rows : List (ℕ × ℕ)) : Osd :=
  { o with
    order := order
    reliability := order.map fun natural ↦ |llr natural|
    rows := rows.map Prod.fst
    syndromes := rows.map Prod.snd }

/-- The codeword with the bits back in their own order. -/
def restore (order : List ℕ) (permuted : ℕ) : List Bool :=
  order.zipIdx.foldl (fun codeword (natural, position) ↦
    codeword.set natural (permuted.testBit position)) (List.replicate N false)

/-- The rest of `decode`, once the rows are reduced and the positions of the pivots known. -/
def finish (o : Osd) (llr : ℕ → ℚ) (order : List ℕ) (reduced : List (ℕ × ℕ) × Option (List ℕ))
    (maxOrder : ℕ) : Osd × Option (List Bool) :=
  match reduced.2 with
  | none => (o.load llr order reduced.1, none)
  | some basis =>
      let hard := hardOf llr order
      let start := reencode reduced.1 hard basis
      let indexed := (o.load llr order reduced.1).indexSyndromes
      (indexed, (indexed.search (start.1 ^^^ hard) start.2 maxOrder).map fun error ↦
        restore order (hard ^^^ error))

def decode (o : Osd) (llr : ℕ → ℚ) (maxOrder : ℕ) : Osd × Option (List Bool) :=
  let order := orderOf sortUnstable llr
  o.finish llr order (eliminate (permutedGenerator code order)) maxOrder

end Decode

end Osd

/-! ## The decoder -/

structure Decoded where
  payload : ℕ
  hardErrors : ℕ
  distance : ℚ
  osd : Bool

structure Decoder where
  belief : Belief
  osd : Osd

/-- The received values that speak against a codeword. -/
def against (llr : ℕ → ℚ) (codeword : List Bool) : List ℚ :=
  ((List.range N).map fun bit ↦ (llr bit, codeword.getD bit false)).filterMap fun (value, bit) ↦
    if decide (0 < value) ≠ bit then some value else none

def hardErrors (llr : ℕ → ℚ) (codeword : List Bool) : ℕ := (against llr codeword).length

def distance (llr : ℕ → ℚ) (codeword : List Bool) : ℚ :=
  let total := ((List.range N).map fun bit ↦ |llr bit|).sum
  if total ≤ 0 then 1 else ((against llr codeword).map fun value ↦ |value|).sum / total

namespace Decoder

variable (sortUnstable : (ℕ → ℕ → Bool) → List ℕ → List ℕ) (code : Code)

def new : Decoder := ⟨⟨fun _ ↦ 0, fun _ _ ↦ 0⟩, .new⟩

/-- The verdict on a codeword, if its checksum fits. -/
def verdict (llr : ℕ → ℚ) (osd : Bool) (codeword : List Bool) : Option Decoded :=
  (payloadOf codeword).map fun payload ↦
    ⟨payload, hardErrors llr codeword, Ftx.distance llr codeword, osd⟩

def decode (d : Decoder) (llr : ℕ → ℚ) (iterations osdOrder : ℕ) : Decoder × Option Decoded :=
  let belief := beliefPropagation code d.belief llr iterations
  match belief.2.bind (verdict llr false) with
  | some decoded => ({ d with belief := belief.1 }, some decoded)
  | none =>
      if osdOrder = 0 then ({ d with belief := belief.1 }, none)
      else
        let osd := d.osd.decode sortUnstable code llr osdOrder
        (⟨belief.1, osd.1⟩, osd.2.bind (verdict llr true))

/-- One call of `decode`. -/
structure Call where
  llr : ℕ → ℚ
  iterations : ℕ
  osdOrder : ℕ

/-- The decoder after some calls. -/
def run (d : Decoder) (calls : List Call) : Decoder :=
  calls.foldl (fun d call ↦ (d.decode sortUnstable code call.llr call.iterations call.osdOrder).1) d

end Decoder

end Sdrmm.Ftx
