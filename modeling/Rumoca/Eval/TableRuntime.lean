import Mathlib.Algebra.Order.Field.Basic
import Mathlib.Algebra.Order.Floor.Ring
import Rumoca.Machine
/-!
# External tables

A table's rows hold an abscissa and outputs. A lookup brings the argument into the
table's range, finds the segment it lies in and evaluates the segment by the
table's smoothness; the event schedule of a time table finds the next abscissa, or
the next image of one when the table repeats. Numbers are exact, so each is finite.
-/

namespace Rumoca.Eval

variable {K : Type} [Field K] [LinearOrder K]

structure ExternalTableData (K : Type) where
  id : Nat
  data : List (List K)
  columns : List Nat
  smoothness : Int
  extrapolation : Int
deriving DecidableEq

inductive TableRuntimeError (K : Type) where
  | invalidTableId (value : K)
  | tableNotFound (id : Nat)
  | invalidColumn (value : K) (outputCount : Nat)
  | missingBounds (tableId : Nat)
  | invalidColumnMetadata (tableId requestedOutputCol dataColCount : Nat)
  | invalidDataShape (tableId : Nat) (reason : String)
  | periodicEventCycleOutOfRange (tableId : Nat) (time : K)
deriving DecidableEq

structure TableLookupResult (K : Type) where
  value : K
  slope : K
deriving DecidableEq

/-- `f64::MAX`. -/
def noNextTimeEvent : K := (2 ^ 53 - 1) * 2 ^ 971

def timeEventEps : K := 1 / 10 ^ 12

/-- `f64::EPSILON`. -/
def epsilon : K := 1 / 2 ^ 52

/-! ## Rows and columns -/

section
variable (table : ExternalTableData K)

def tableRowX (rowIdx : Nat) : Except (TableRuntimeError K) K :=
  match table.data[rowIdx]? >>= fun row => row.head? with
  | some x => pure x
  | none => throw (.invalidDataShape table.id "row is missing the x column")

def tableRowValue (rowIdx colIdx : Nat) : Except (TableRuntimeError K) K :=
  match table.data[rowIdx]? >>= fun row => row[colIdx]? with
  | some y => pure y
  | none => throw (.invalidDataShape table.id "row is missing the selected output column")

def tableXBounds : Except (TableRuntimeError K) (K × K) :=
  match table.data.head? >>= fun row => row.head?, table.data.getLast? >>= fun row => row.head? with
  | some first, some last => pure (first, last)
  | _, _ => throw (.missingBounds table.id)

def tableOutputCount : Nat :=
  if table.columns.isEmpty then
    match table.data.head? with
    | some row => row.length - 1
    | none => 0
  else table.columns.length

end

def selectedTableColumn (columns : List Nat) (tableId requestedOutputCol dataColCount : Nat) :
    Except (TableRuntimeError K) Nat :=
  let invalid : Except (TableRuntimeError K) Nat :=
    throw (.invalidColumnMetadata tableId requestedOutputCol dataColCount)
  if dataColCount = 0 then invalid
  else if columns.isEmpty then
    match checkedUsize (requestedOutputCol + 1) with
    | some dataCol => if dataCol < dataColCount then pure dataCol else invalid
    | none => invalid
  else
    match columns[requestedOutputCol]? with
    | some column => if 0 < column ∧ column - 1 < dataColCount then pure (column - 1) else invalid
    | none => invalid

/-! ## Segments -/

def scanSegment (table : ExternalTableData K) (xReal : K) : (fuel idx : Nat) → Except (TableRuntimeError K) Nat
  | 0, idx => pure idx
  | fuel + 1, idx =>
    if idx + 1 < table.data.length then do
      let next ← tableRowX table (idx + 1)
      if next ≤ xReal then scanSegment table xReal fuel (idx + 1) else pure idx
    else pure idx

def lookupSegmentIndex (table : ExternalTableData K) (xReal : K) : Except (TableRuntimeError K) Nat := do
  if table.data.length = 0 then throw (.invalidDataShape table.id "table data is empty")
  let lastIdx := table.data.length - 1
  if lastIdx = 0 then throw (.invalidDataShape table.id "table requires at least two rows for segment lookup")
  let lastSegmentIdx := lastIdx - 1
  let first ← tableRowX table 0
  if xReal ≤ first then return 0
  let last ← tableRowX table lastIdx
  if last ≤ xReal then return lastSegmentIdx
  let idx ← scanSegment table xReal table.data.length 0
  return min idx lastSegmentIdx

/-! ## The Akima spline -/

/-- The secants of the segments, with two fabricated ones past each end. -/
def akimaSecants (xs ys : Nat → K) (n : Nat) (i : Nat) : K :=
  let d := fun i => (ys (i - 1) - ys (i - 2)) / (xs (i - 1) - xs (i - 2))
  if i = 0 then 3 * d 2 - 2 * d 3
  else if i = 1 then 2 * d 2 - d 3
  else if i = n + 1 then 2 * d n - d (n - 1)
  else if i = n + 2 then 3 * d n - 2 * d (n - 1)
  else d i

/-- The slope at knot `j`. -/
def akimaKnotSlope (xs ys : Nat → K) (n j : Nat) : K :=
  let d := akimaSecants xs ys n
  let right := |d (j + 3) - d (j + 2)|
  let left := |d (j + 1) - d j|
  let denom := right + left
  if 0 < denom then (1 - left / denom) * d (j + 1) + left / denom * d (j + 2)
  else 1 / 2 * d (j + 1) + 1 / 2 * d (j + 2)

/-- The cubic coefficients `(c0, c1, c2)` of the segment that starts at knot `i`. -/
def akimaIntervalCoeffs (xs ys slopes : Nat → K) (i : Nat) : K × K × K :=
  let dx := xs (i + 1) - xs i
  let secant := (ys (i + 1) - ys i) / dx
  let c2 := slopes i
  let c2Next := slopes (i + 1)
  ((c2 + c2Next - 2 * secant) / (dx * dx), (3 * secant - 2 * c2 - c2Next) / dx, c2)

def evalAkima1d (table : ExternalTableData K) (outputCol : Nat) (x : K) (segment : Nat) (outOfRange preserveSlope : Bool) :
    Except (TableRuntimeError K) (TableLookupResult K) := do
  let n := table.data.length
  let knots ← (List.range n).mapM fun row => do
    let x ← tableRowX table row
    let y ← tableRowValue table row outputCol
    return (x, y)
  let xs := fun i => (knots.getD i (0, 0)).1
  let ys := fun i => (knots.getD i (0, 0)).2
  let slopes := akimaKnotSlope xs ys n
  let xMin := xs 0
  let xMax := xs (n - 1)
  if outOfRange && preserveSlope then
    if x < xMin then
      let (_, _, c2) := akimaIntervalCoeffs xs ys slopes 0
      return ⟨ys 0 + c2 * (x - xMin), c2⟩
    let last := n - 2
    let (c0, c1, c2) := akimaIntervalCoeffs xs ys slopes last
    let v := xMax - xs last
    let slope := (3 * c0 * v + 2 * c1) * v + c2
    return ⟨ys (n - 1) + slope * (x - xMax), slope⟩
  let (c0, c1, c2) := akimaIntervalCoeffs xs ys slopes segment
  let v := x - xs segment
  let value := ys segment + ((c0 * v + c1) * v + c2) * v
  let slope := if preserveSlope then (3 * c0 * v + 2 * c1) * v + c2 else 0
  return ⟨value, slope⟩

/-! ## Lookup -/

section
variable [FloorRing K]

/-- `trunc`. -/
def truncate (q : K) : Int := if 0 ≤ q then ⌊q⌋ else ⌈q⌉

/-- `%`, with the sign of the dividend. -/
def remainder (a b : K) : K := a - truncate (a / b) * b

/-- `round`, half away from zero. -/
def roundAway (q : K) : Int := if 0 ≤ q then ⌊q + 1 / 2⌋ else ⌈q - 1 / 2⌉

/-- The argument in the table's range, whether it was out of range, and whether it keeps its slope. -/
def extrapolatedX (x xMin xMax : K) (extrapolation : Int) : K × Bool × Bool :=
  if xMax < xMin then (x, false, true)
  else if xMin = xMax then (xMin, false, false)
  else if xMin ≤ x ∧ x ≤ xMax then (x, false, true)
  else if extrapolation = 2 then (x, true, true)
  else if extrapolation = 3 then
    let span := xMax - xMin
    if 0 < span then
      let wrapped := remainder (x - xMin) span
      let wrapped := if wrapped < 0 then wrapped + span else wrapped
      (xMin + wrapped, false, true)
    else (xMin, false, true)
  else (max xMin (min x xMax), true, false)

def evalTable1dLookup (table : ExternalTableData K) (requestedOutputCol : Nat) (x : K) :
    Except (TableRuntimeError K) (TableLookupResult K) := do
  let dataColCount ← match table.data.head? with
    | some row => pure row.length
    | none => throw (.invalidDataShape table.id "table data is empty")
  if dataColCount < 2 then
    throw (.invalidDataShape table.id "first row must contain x and at least one output column")
  let outputCol ← selectedTableColumn table.columns table.id requestedOutputCol dataColCount
  let (xMin, xMax) ← tableXBounds table
  let (xReal, outOfRange, preserveSlope) := extrapolatedX x xMin xMax table.extrapolation
  if table.data.length = 1 then
    let value ← tableRowValue table 0 outputCol
    return ⟨value, 0⟩
  let lastIdx := table.data.length - 1
  if xMin = xMax then
    let value ← tableRowValue table (if x < xMin then 0 else lastIdx) outputCol
    return ⟨value, 0⟩
  let k ← lookupSegmentIndex table xReal
  let nextIdx := min (k + 1) lastIdx
  let x0 ← tableRowX table k
  let x1 ← tableRowX table nextIdx
  let y0 ← tableRowValue table k outputCol
  let y1 ← tableRowValue table nextIdx outputCol
  if table.smoothness = 3 ∧ outOfRange = false then
    if xMax ≤ xReal then
      let value ← tableRowValue table lastIdx outputCol
      return ⟨value, 0⟩
    return ⟨y0, 0⟩
  if |x1 - x0| ≤ epsilon then return ⟨y0, 0⟩
  if table.smoothness = 2 ∧ 3 ≤ table.data.length then
    evalAkima1d table outputCol xReal k outOfRange preserveSlope
  else
    let slope := (y1 - y0) / (x1 - x0)
    return ⟨y0 + (xReal - x0) * slope, if preserveSlope then slope else 0⟩

/-! ## By id and column -/

def externalTableId (tableId : K) : Except (TableRuntimeError K) Nat :=
  let rounded := roundAway tableId
  if 1 / 10 ^ 6 < |(rounded : K) - tableId| ∨ rounded ≤ 0 ∨ (2 ^ 64 : Int) ≤ rounded then throw (.invalidTableId tableId)
  else pure rounded.toNat

def lookupExternalTable (tableId : K) (tables : List (ExternalTableData K)) :
    Except (TableRuntimeError K) (ExternalTableData K) := do
  let id ← externalTableId tableId
  match tables.find? (·.id = id) with
  | some table => pure table
  | none => throw (.tableNotFound id)

def tableColIndex (table : ExternalTableData K) (colArg : K) : Except (TableRuntimeError K) Nat :=
  let rounded := roundAway colArg
  let outputCount := tableOutputCount table
  if 1 / 10 ^ 9 < |(rounded : K) - colArg| ∨ rounded < 1 ∨ (outputCount : Int) < rounded then
    throw (.invalidColumn colArg outputCount)
  else pure (rounded.toNat - 1)

def evalTableLookupValueIn (tableId colArg x : K) (tables : List (ExternalTableData K)) :
    Except (TableRuntimeError K) K := do
  let table ← lookupExternalTable tableId tables
  let colIdx ← tableColIndex table colArg
  let result ← evalTable1dLookup table colIdx x
  return result.value

/-! ## Events -/

def finiteFloorToI64 (value : K) (tableId : Nat) (time : K) : Except (TableRuntimeError K) Int :=
  match checkedI64 ⌊value⌋ with
  | some floored => pure floored
  | none => throw (.periodicEventCycleOutOfRange tableId time)

/-- The least image of a knot past the time, in the cycles around it. -/
def nextPeriodicTimeEvent (table : ExternalTableData K) (knots : List K) (timeIn : K) :
    Except (TableRuntimeError K) (Option K) := do
  let (xMin, xMax) ← tableXBounds table
  let span := xMax - xMin
  if span ≤ timeEventEps then return none
  let cycle ← finiteFloorToI64 ((timeIn - xMin) / span) table.id timeIn
  match checkedI64 (cycle - 1), checkedI64 (cycle + 2) with
  | some start, some stop =>
    let cycles := (List.range (stop + 1 - start).toNat).map fun i : Nat => start + (i : Int)
    let candidates := (cycles.flatMap fun n : Int => knots.map fun x => x + n * span).filter (timeIn + timeEventEps < ·)
    return candidates.min?
  | _, _ => throw (.periodicEventCycleOutOfRange table.id timeIn)

def evalTimeTableNextEvent (table : ExternalTableData K) (timeIn : K) : Except (TableRuntimeError K) K := do
  let knots := table.data.filterMap fun row => row.head?
  if knots.isEmpty then return noNextTimeEvent
  let next ← if table.extrapolation = 3 then nextPeriodicTimeEvent table knots timeIn else pure none
  match next with
  | some next => return next
  | none => return (knots.find? (timeIn + timeEventEps < ·)).getD noNextTimeEvent

def evalTimeTableNextEventValueIn (tableId timeIn : K) (tables : List (ExternalTableData K)) :
    Except (TableRuntimeError K) K := do
  let table ← lookupExternalTable tableId tables
  evalTimeTableNextEvent table timeIn

end

end Rumoca.Eval
