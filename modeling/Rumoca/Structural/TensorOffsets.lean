import Rumoca.Structural.Offsets
/-!
# Offsets that are constant within an owner

`refineOffsets` raises a pair of offsets until they are constant on the rows of
each equation and the columns of each declaration, cover the orders the rows ask
for and follow the matching. `tensorCertificate` is the check of the result that
ends the analysis.
-/

namespace Rumoca.Structural

open Rumoca.Lib

/-- The rows of an equation, or the columns of a declaration, as a `Range<usize>`. -/
structure OwnerRange where
  start : Nat
  stop : Nat
deriving DecidableEq, Repr

def OwnerRange.Has (group : OwnerRange) (index : Nat) : Prop := group.start ≤ index ∧ index < group.stop

instance (group : OwnerRange) (index : Nat) : Decidable (group.Has index) := inferInstanceAs (Decidable (_ ∧ _))

/-- `&values[group]`. -/
def OwnerRange.slice (group : OwnerRange) (values : List Nat) : List Nat :=
  (values.drop group.start).take (group.stop - group.start)

structure OwnerGroups where
  rows : List OwnerRange
  columns : List OwnerRange

/-- The groups follow each other from `stop` up to `count`. -/
def partitionsFrom (count : Nat) : List OwnerRange → (stop : Nat) → Bool
  | [], stop => stop = count
  | group :: rest, stop =>
    if group.start ≠ stop ∨ group.stop < group.start ∨ count < group.stop then false
    else partitionsFrom count rest group.stop

def partitions (groups : List OwnerRange) (count : Nat) : Bool := partitionsFrom count groups 0

/-- `raise` on the component `index`, with the `changed` flag. -/
def raiseAt (s : List Nat × Bool) (index value : Nat) : List Nat × Bool :=
  match s.1[index]? with
  | none => s
  | some target => if value ≤ target then s else (s.1.set index value, true)

def equalizeGroup (s : List Nat × Bool) (group : OwnerRange) : List Nat × Bool :=
  let maximum := ((group.slice s.1).max?).getD 0
  (List.range' group.start (group.stop - group.start)).foldl (fun s index => raiseAt s index maximum) s

def equalize (groups : List OwnerRange) (s : List Nat × Bool) : List Nat × Bool := groups.foldl equalizeGroup s

/-- One entry of `relax_variable_orders`; an invariant column stays where it is. -/
def relaxOrder (equationOrders : List Nat) (invariantColumns : List Bool) (row : Nat) (s : List Nat × Bool)
    (entry : SignatureEntry) : Fallible (List Nat × Bool) :=
  if (invariantColumns[entry.column]?).getD false then pure s
  else do
    let equation ← orPanic equationOrders[row]?
    let value ← orError (checkedU32 (equation + entry.order)) "tensor differential order overflow"
    let _ ← orError s.1[entry.column]? "tensor differential signature column is out of range"
    pure (raiseAt s entry.column value)

def relaxVariableOrders (equationOrders : List Nat) (rows : List (List SignatureEntry)) (invariantColumns : List Bool)
    (s : List Nat × Bool) : Fallible (List Nat × Bool) :=
  rows.zipIdx.foldlM (fun s (entries, row) => entries.foldlM (relaxOrder equationOrders invariantColumns row) s) s

def raiseMatched (rows : List (List SignatureEntry)) (variableOrders : List Nat) (s : List Nat × Bool)
    (indexed : Nat × Nat) : Fallible (List Nat × Bool) := do
  let (column, row) := indexed
  let entries ← orPanic rows[row]?
  let entry ← orError (entries.find? fun entry => entry.column = column)
    "tensor differential matching claims an absent edge"
  let variableOrder ← orPanic variableOrders[column]?
  let value ← orError (if entry.order ≤ variableOrder then some (variableOrder - entry.order) else none)
    "negative tensor differential equation order"
  pure (raiseAt s row value)

def refineSweep (rows : List (List SignatureEntry)) (matching : List Nat) (groups : OwnerGroups)
    (invariantColumns : List Bool) (equationOrders variableOrders : List Nat) :
    Fallible ((List Nat × List Nat) × Bool) := do
  let (equationOrders, changed) := equalize groups.rows (equationOrders, false)
  let s ← relaxVariableOrders equationOrders rows invariantColumns (variableOrders, changed)
  let (variableOrders, changed) := equalize groups.columns s
  let (equationOrders, changed) ← matching.zipIdx.foldlM (raiseMatched rows variableOrders) (equationOrders, changed)
  pure ((equationOrders, variableOrders), changed)

/-- At most `sweeps` sweeps; `none` when the last one still raises an order. -/
def refineSweeps (rows : List (List SignatureEntry)) (matching : List Nat) (groups : OwnerGroups)
    (invariantColumns : List Bool) :
    (sweeps : Nat) → (equationOrders variableOrders : List Nat) → Fallible (Option (List Nat × List Nat))
  | 0, _, _ => pure none
  | sweeps + 1, equationOrders, variableOrders => do
    let ((equationOrders, variableOrders), changed) ←
      refineSweep rows matching groups invariantColumns equationOrders variableOrders
    if changed then refineSweeps rows matching groups invariantColumns sweeps equationOrders variableOrders
    else pure (some (equationOrders, variableOrders))

/-- `refine`. -/
def refineOffsets (rows : List (List SignatureEntry)) (matching : List Nat) (initial : List Nat × List Nat)
    (groups : OwnerGroups) (invariantColumns : List Bool) : Fallible (Option (List Nat × List Nat)) :=
  let (equationOrders, variableOrders) := initial
  if rows.length ≠ matching.length ∨ rows.length ≠ equationOrders.length ∨ rows.length ≠ variableOrders.length ∨
      rows.length ≠ invariantColumns.length ∨
      partitions groups.rows equationOrders.length = false ∨ partitions groups.columns variableOrders.length = false
  then
    throw "tensor differential offset groups do not cover their source views"
  else do
    let nodes ← orError (checkedUsize (groups.rows.length + groups.columns.length))
      "tensor differential owner count overflow"
    refineSweeps rows matching groups invariantColumns (nodes + 1) equationOrders variableOrders

end Rumoca.Structural
