import Mathlib.Data.Prod.Lex
import Mathlib.Algebra.Order.Ring.Rat
import Sdrmm.Lib.Checked

/-!
# Assigning tracks

`Assignment.solve` is the Hungarian algorithm over costs that count forbidden pairs before they count the
total.  Numbers are those of an `f64`, with sums and differences of finite ones taken exactly.  A problem is
padded to a square with pairs that cost nothing, and the buffers of an object serve one problem after the
other.
-/

namespace Sdrmm.Assign

open Lib.Checked

/-! ## Numbers and costs -/

/-- An `f64`, its finite values as rational numbers. -/
inductive F64 where
  | finite (value : ℚ)
  | infinite (negative : Bool)
  | nan
  deriving DecidableEq

namespace F64

def isFinite : F64 → Bool
  | finite _ => true
  | _ => false

def neg : F64 → F64
  | finite value => finite (-value)
  | infinite negative => infinite !negative
  | nan => nan

def add : F64 → F64 → F64
  | finite a, finite b => finite (a + b)
  | finite _, infinite negative => infinite negative
  | infinite negative, finite _ => infinite negative
  | infinite a, infinite b => if a = b then infinite a else nan
  | nan, _ => nan
  | _, nan => nan

def sub (a b : F64) : F64 := a.add b.neg

def partialCmp : F64 → F64 → Option Ordering
  | finite a, finite b => some (compare a b)
  | finite _, infinite negative => some (if negative then .gt else .lt)
  | infinite negative, finite _ => some (if negative then .lt else .gt)
  | infinite a, infinite b => some (if a = b then .eq else if a then .lt else .gt)
  | nan, _ => none
  | _, nan => none

end F64

structure Cost where
  forbidden : F64
  total : F64
  deriving DecidableEq

namespace Cost

def OPEN : Cost := ⟨.finite 0, .finite 0⟩

def FORBIDDEN : Cost := ⟨.finite 1, .finite 0⟩

def UNBOUNDED : Cost := ⟨.infinite false, .infinite false⟩

def of : Option F64 → Cost
  | some total => if total.isFinite then ⟨.finite 0, total⟩ else FORBIDDEN
  | none => FORBIDDEN

def allowed (cost : Cost) : Bool := cost.forbidden.partialCmp (.finite 0) = some .eq

instance : Add Cost := ⟨fun a b ↦ ⟨a.forbidden.add b.forbidden, a.total.add b.total⟩⟩

instance : Sub Cost := ⟨fun a b ↦ ⟨a.forbidden.sub b.forbidden, a.total.sub b.total⟩⟩

/-- The order that is derived: by the first field, then by the second. -/
def partialCmp (a b : Cost) : Option Ordering :=
  match a.forbidden.partialCmp b.forbidden with
  | some .eq => a.total.partialCmp b.total
  | order => order

def less (a b : Cost) : Bool := a.partialCmp b = some .lt

end Cost

/-! ## The solver -/

inductive AssignError where
  | capacity (rows cols maxRows maxCols : ℕ)
  | output (held rows : ℕ)
  deriving DecidableEq

structure Assignment where
  maxRows : ℕ
  maxCols : ℕ
  cost : List Cost
  rowPotential : List Cost
  colPotential : List Cost
  colOwner : List ℕ
  way : List ℕ
  slack : List Cost
  used : List Bool

namespace Assignment

def new (maxRows maxCols : ℕ) : Assignment :=
  let size := max maxRows maxCols
  { maxRows
    maxCols
    cost := List.replicate (size * size) .OPEN
    rowPotential := List.replicate (size + 1) .OPEN
    colPotential := List.replicate (size + 1) .OPEN
    colOwner := List.replicate (size + 1) 0
    way := List.replicate (size + 1) 0
    slack := List.replicate (size + 1) .OPEN
    used := List.replicate (size + 1) false }

/-- The cost of a pair in the padded square. -/
def padded (rows cols : ℕ) (cost : ℕ → ℕ → Option F64) (row col : ℕ) : Cost :=
  if row < rows ∧ col < cols then .of (cost row col) else .OPEN

def fillCell (rows cols size : ℕ) (cost : ℕ → ℕ → Option F64) (row : ℕ) (a : Assignment) (col : ℕ) :
    Except Halt Assignment := do
  let cells ← update a.cost (row * size + col) fun _ ↦ padded rows cols cost row col
  return { a with cost := cells }

def fill (a : Assignment) (rows cols size : ℕ) (cost : ℕ → ℕ → Option F64) : Except Halt Assignment :=
  (List.range size).foldlM (fun a row ↦ (List.range size).foldlM (fillCell rows cols size cost row) a) a

/-- One column of the scan, which also looks for the least slack and its column. -/
def relax (size owner current : ℕ) (scan : Assignment × Cost × ℕ) (col : ℕ) :
    Except Halt (Assignment × Cost × ℕ) := do
  let (a, delta, next) := scan
  if ← index a.used col then
    return (a, delta, next)
  let cell ← index a.cost (← sub ((← sub owner 1) * size + col) 1)
  let reduced := cell - (← index a.rowPotential owner) - (← index a.colPotential col)
  let before ← index a.slack col
  let slack ← if reduced.less before then update a.slack col fun _ ↦ reduced else pure a.slack
  let way ← if reduced.less before then update a.way col fun _ ↦ current else pure a.way
  let held ← index slack col
  let a := { a with slack := slack, way := way }
  return if held.less delta then (a, held, col) else (a, delta, next)

/-- One column of the change of potentials. -/
def shift (delta : Cost) (a : Assignment) (col : ℕ) : Except Halt Assignment := do
  if ← index a.used col then
    let rowPotential ← update a.rowPotential (← index a.colOwner col) (· + delta)
    let colPotential ← update a.colPotential col (· - delta)
    return { a with rowPotential := rowPotential, colPotential := colPotential }
  else
    let slack ← update a.slack col (· - delta)
    return { a with slack := slack }

/-- One round of the search: from a column that is in use to the next. -/
def round (size : ℕ) (a : Assignment) (current : ℕ) : Except Halt (Assignment × ℕ) := do
  let used ← update a.used current fun _ ↦ true
  let owner ← index a.colOwner current
  let (a, delta, next) ←
    (List.range' 1 size).foldlM (relax size owner current) ({ a with used := used }, .UNBOUNDED, 0)
  let a ← (List.range (size + 1)).foldlM (shift delta) a
  return (a, next)

def searchFrom (size : ℕ) : ℕ → Assignment → ℕ → Except Halt (Assignment × ℕ)
  | 0, a, current => .ok (a, current)
  | rounds + 1, a, current => do
    let (a, next) ← round size a current
    if (← index a.colOwner next) = 0 then return (a, next) else searchFrom size rounds a next

def search (size : ℕ) (a : Assignment) : Except Halt (Assignment × ℕ) := searchFrom size (size + 1) a 0

/-- The walk back to column 0, which fails if it has not ended after so many columns.  As `way` stays as it
is, a walk over more columns than there are would never end. -/
def augmentFrom : ℕ → Assignment → ℕ → Except Halt Assignment
  | 0, _, _ => .error .failed
  | rounds + 1, a, current =>
    if current = 0 then .ok a
    else do
      let previous ← index a.way current
      let owner ← index a.colOwner previous
      let colOwner ← update a.colOwner current fun _ ↦ owner
      augmentFrom rounds { a with colOwner := colOwner } previous

def augment (size : ℕ) (a : Assignment) (free : ℕ) : Except Halt Assignment := augmentFrom (size + 1) a free

def place (size : ℕ) (a : Assignment) (row : ℕ) : Except Halt Assignment := do
  let colOwner ← update a.colOwner 0 fun _ ↦ row
  let slack ← Lib.Checked.fill a.slack (size + 1) .UNBOUNDED
  let used ← Lib.Checked.fill a.used (size + 1) false
  let (a, free) ← search size { a with colOwner := colOwner, slack := slack, used := used }
  augment size a free

def run (size : ℕ) (a : Assignment) : Except Halt Assignment := do
  let rowPotential ← Lib.Checked.fill a.rowPotential (size + 1) .OPEN
  let colPotential ← Lib.Checked.fill a.colPotential (size + 1) .OPEN
  let colOwner ← Lib.Checked.fill a.colOwner (size + 1) 0
  let way ← Lib.Checked.fill a.way (size + 1) 0
  (List.range' 1 size).foldlM (place size)
    { a with rowPotential := rowPotential, colPotential := colPotential, colOwner := colOwner, way := way }

/-- One column of what is given out. -/
def collectCol (rows size : ℕ) (a : Assignment) (given : List (Option ℕ) × ℕ) (col : ℕ) :
    Except Halt (List (Option ℕ) × ℕ) := do
  let (out, assigned) := given
  let row ← index a.colOwner col
  if row = 0 ∨ rows < row then
    return (out, assigned)
  let cell ← index a.cost (← sub ((← sub row 1) * size + col) 1)
  if cell.allowed then
    let out ← update out (← sub row 1) fun _ ↦ some (col - 1)
    return (out, assigned + 1)
  else
    return (out, assigned)

def collect (a : Assignment) (rows cols size : ℕ) (out : List (Option ℕ)) :
    Except Halt (List (Option ℕ) × ℕ) :=
  (List.range' 1 cols).foldlM (collectCol rows size a) (out, 0)

/-- The object after a call, the slice it writes to, and its result. -/
def solve (a : Assignment) (rows cols : ℕ) (cost : ℕ → ℕ → Option F64) (out : List (Option ℕ)) :
    Except Halt (Assignment × List (Option ℕ) × Except AssignError ℕ) := do
  if rows > a.maxRows ∨ cols > a.maxCols then
    return (a, out, .error (.capacity rows cols a.maxRows a.maxCols))
  if out.length < rows then
    return (a, out, .error (.output out.length rows))
  let out ← Lib.Checked.fill out rows none
  let size := max rows cols
  if rows = 0 ∨ cols = 0 then
    return (a, out, .ok 0)
  let a ← a.fill rows cols size cost
  let a ← run size a
  let (out, assigned) ← a.collect rows cols size out
  return (a, out, .ok assigned)

end Assignment

end Sdrmm.Assign
