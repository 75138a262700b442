import Rumoca.Structural.Assignment
/-!
# Least offsets and their certificate

The sweeps that raise row and column offsets from the matched rows, and the
separate check of the result. A list has one component for each row or
column.
-/

namespace Rumoca.Structural

open Rumoca.Lib

/-- One entry of `relax_variable_offsets`; an invariant column asks for nothing. -/
def relaxEntry (equationOrders : List Nat) (invariantColumns : List Bool) (row : Nat) (variableOrders : List Nat)
    (entry : SignatureEntry) : Fallible (List Nat) :=
  if (invariantColumns[entry.column]?).getD false then pure variableOrders
  else do
    let equation ← orPanic equationOrders[row]?
    let value ← orError (checkedU32 (equation + entry.order)) "differential order overflow"
    let target ← orError variableOrders[entry.column]? "signature column is out of range"
    pure (variableOrders.set entry.column (max target value))

def relaxVariableOffsets (equationOrders variableOrders : List Nat) (rows : List (List SignatureEntry))
    (invariantColumns : List Bool) : Fallible (List Nat) :=
  rows.zipIdx.foldlM (fun variableOrders (entries, row) =>
    entries.foldlM (relaxEntry equationOrders invariantColumns row) variableOrders) variableOrders

/-- One matched row of a sweep, with the `changed` flag. -/
def sweepRow (rows : List (List SignatureEntry)) (variableOrders : List Nat) (s : List Nat × Bool)
    (indexed : Nat × Nat) : Fallible (List Nat × Bool) := do
  let (equationOrders, changed) := s
  let (column, row) := indexed
  let entries ← orPanic rows[row]?
  let entry ← orError (entries.find? fun entry => entry.column = column) "differential matching claims an absent edge"
  let variableOrder ← orPanic variableOrders[column]?
  let order ← orError (if entry.order ≤ variableOrder then some (variableOrder - entry.order) else none)
    "negative differential equation order"
  let equation ← orPanic equationOrders[row]?
  if order < equation then throw "differential offset iteration is not monotone"
  else pure (equationOrders.set row order, changed || order != equation)

/-- At most `sweeps` sweeps, from `equationOrders`. -/
def sweepOffsets (rows : List (List SignatureEntry)) (matching variableLowerBounds : List Nat)
    (invariantColumns : List Bool) : (sweeps : Nat) → (equationOrders : List Nat) → Fallible (List Nat × List Nat)
  | 0, _ => throw "differential offsets exceed the simple-path bound"
  | sweeps + 1, equationOrders => do
    let variableOrders ← relaxVariableOffsets equationOrders variableLowerBounds rows invariantColumns
    let (equationOrders, changed) ← matching.zipIdx.foldlM (sweepRow rows variableOrders) (equationOrders, false)
    if changed then sweepOffsets rows matching variableLowerBounds invariantColumns sweeps equationOrders
    else pure (equationOrders, variableOrders)

def leastOffsetsWithLowerBounds (rows : List (List SignatureEntry)) (matching variableLowerBounds : List Nat)
    (invariantColumns : List Bool) : Fallible (List Nat × List Nat) :=
  if matching.length ≠ rows.length then throw "differential matching has the wrong row count"
  else if variableLowerBounds.length ≠ rows.length then throw "differential lower bounds have the wrong column count"
  else if invariantColumns.length ≠ rows.length then
    throw "differential invariant columns have the wrong column count"
  else sweepOffsets rows matching variableLowerBounds invariantColumns (rows.length + 1)
    (List.replicate rows.length 0)

/-! ## The certificate -/

/-- The order of an entry of a row with offset `equation` is covered, unless its column is invariant. -/
def certifyEntry (variableOrders : List Nat) (invariantColumns : List Bool) (equation : Nat) (entry : SignatureEntry) :
    Option Unit := do
  let invariant ← invariantColumns[entry.column]?
  if invariant then pure ()
  else
    let variableOrder ← variableOrders[entry.column]?
    if equation ≤ variableOrder ∧ entry.order ≤ variableOrder - equation then pure () else none

/-- One row of `certify`, with the columns seen and the objective. -/
def certifyRow (matching equationOrders variableOrders : List Nat) (invariantColumns : List Bool) (s : List Bool × Nat)
    (indexed : List SignatureEntry × Nat) : Option (List Bool × Nat) := do
  let (seen, objective) := s
  let (entries, row) := indexed
  let column ← matching[row]?
  let before ← seen[column]?
  if before then none
  else
    let matched ← entries.find? fun entry => entry.column = column
    let variableOrder ← variableOrders[column]?
    let equation ← equationOrders[row]?
    if ¬ (equation ≤ variableOrder ∧ variableOrder - equation = matched.order) then none
    else
      let objective ← checkedUsize (objective + matched.order)
      entries.forM (certifyEntry variableOrders invariantColumns equation)
      pure (seen.set column true, objective)

/-- A sum that must fit a `usize`. -/
def checkedSum (values : List Nat) : Option Nat :=
  values.foldlM (fun total value => checkedUsize (total + value)) 0

def certify (rows : List (List SignatureEntry)) (matching equationOrders variableOrders : List Nat)
    (invariantColumns : List Bool) : Option Nat := do
  if [matching.length, equationOrders.length, variableOrders.length, invariantColumns.length].any (· != rows.length)
  then none
  else
    let (_, objective) ← rows.zipIdx.foldlM (certifyRow matching equationOrders variableOrders invariantColumns)
      (List.replicate rows.length false, 0)
    let total ← checkedSum variableOrders
    let subtracted ← checkedSum equationOrders
    if subtracted ≤ total ∧ total - subtracted = objective then some objective else none

end Rumoca.Structural
