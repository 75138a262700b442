import Mathlib.Data.List.Sort
import Rumoca.Solver.PreBindings
/-!
# Event-iteration history

Between two passes of an event the ordinary `pre` lanes advance together:
`advance` validates every run, sorts the runs by destination, splits the
parameters at them and copies. `eventIterationPlanSettled` walks the bindings
one by one and says whether the passes have come to rest.
-/

namespace Rumoca.Solver

open Rumoca.Lib

/-! ## The model -/

inductive EventIterationValueKind where
  | real | integer | boolean | enumeration
deriving DecidableEq, Repr

inductive SolveVariableStorageRole where
  | parameter | constant | externalInput | state | algebraic | output | discreteReal | discreteValue
deriving DecidableEq, Repr

inductive SolveVariableValueKind where
  | real | integer | boolean | enumeration | string
deriving DecidableEq, Repr

structure SolveVariableStorageRun where
  scalarCount : Nat
  role : SolveVariableStorageRole
  valueKind : SolveVariableValueKind
deriving Repr

def SolveVariableStorageRun.eventIterationKind (storage : SolveVariableStorageRun) : Option EventIterationValueKind :=
  match storage.role, storage.valueKind with
  | .discreteReal, .real => some .real
  | .discreteValue, .integer => some .integer
  | .discreteValue, .boolean => some .boolean
  | .discreteValue, .enumeration => some .enumeration
  | _, _ => none

inductive EventIterationOwner where
  | hold
  | scalarRows (startRow : Nat)
  | structuredUpdate (updateIndex : Nat)
  | guardedAssignment (programIndex targetRangeIndex : Nat)
  | eventTransaction (programIndex targetIndex : Nat)
  | partitioned (firstPartition partitionCount : Nat)
deriving DecidableEq, Repr

structure EventIterationPartition where
  scalarStart : Nat
  scalarCount : Nat
  owner : EventIterationOwner
deriving Repr

/-- One discrete variable's run; `position` is the source's `variable`. -/
structure EventIterationRun where
  position : Nat
  preBindingStart : Nat
  owner : EventIterationOwner
deriving Repr

abbrev PeriodicClockId := Nat

/-- The discrete system, as far as the history reads it: of a structured update, a guarded assignment and
a target of a transaction, the clock that owns it. -/
structure DiscreteSolveSystem where
  runs : List EventIterationRun
  partitions : List EventIterationPartition
  clockOwners : List (Option PeriodicClockId)
  structuredUpdates : List (Option PeriodicClockId)
  guardedAssignments : List (Option PeriodicClockId)
  eventTransactions : List (List (Option PeriodicClockId))

structure SolveModel (S : Type) where
  discrete : DiscreteSolveSystem
  variableStorageRuns : List SolveVariableStorageRun
  preParamBindings : List (PreParamBinding S)

namespace DiscreteSolveSystem

def eventIterationLeafClock (system : DiscreteSolveSystem) (owner : EventIterationOwner) :
    Except String (Option PeriodicClockId) :=
  let okOr (clock : Option (Option PeriodicClockId)) (message : String) : Except String (Option PeriodicClockId) :=
    match clock with
    | some clock => .ok clock
    | none => .error message
  match owner with
  | .hold => .ok none
  | .scalarRows startRow =>
    okOr system.clockOwners[startRow]? "event-iteration scalar owner clock is out of bounds"
  | .structuredUpdate updateIndex =>
    okOr system.structuredUpdates[updateIndex]? "event-iteration structured owner clock is out of bounds"
  | .guardedAssignment programIndex _ =>
    okOr system.guardedAssignments[programIndex]? "event-iteration guarded owner clock is out of bounds"
  | .eventTransaction programIndex targetIndex =>
    okOr (system.eventTransactions[programIndex]?.bind fun targets => targets[targetIndex]?)
      "event-iteration transaction owner clock is out of bounds"
  | .partitioned _ _ => .error "event-iteration partitions cannot contain partitioned owners"

def partitionedEventIterationClock (system : DiscreteSolveSystem) (firstPartition partitionCount : Nat) :
    Except String (Option PeriodicClockId) :=
  if partitionCount = 0 then .error "event-iteration partition owner is empty"
  else
    match checkedUsize (firstPartition + partitionCount) with
    | none => .error "event-iteration partition range overflowed"
    | some last =>
      if system.partitions.length < last then .error "event-iteration partition range is out of bounds"
      else
        match (system.partitions.drop firstPartition).take partitionCount with
        | [] => .error "event-iteration partition range is out of bounds"
        | first :: rest => do
          let clock ← system.eventIterationLeafClock first.owner
          rest.forM fun partition => do
            let other ← system.eventIterationLeafClock partition.owner
            if other ≠ clock then throw "event-iteration partition owners disagree on their typed clock"
          pure clock

/-- The clock that owns a run; `none` for a run that iterates with the event. -/
def eventIterationRunClock (system : DiscreteSolveSystem) (run : EventIterationRun) :
    Except String (Option PeriodicClockId) :=
  match run.owner with
  | .partitioned firstPartition partitionCount =>
    system.partitionedEventIterationClock firstPartition partitionCount
  | owner => system.eventIterationLeafClock owner

end DiscreteSolveSystem

/-- The operations on `f64` that the history uses, and what equality does on values that are not NaN. -/
structure FloatOps (V : Type) where
  isFinite : V → Bool
  /-- `value.fract() == 0.0` -/
  isIntegral : V → Bool
  eq : V → V → Bool
  /-- `value >= 1.0` -/
  atLeastOne : V → Bool
  zero : V
  one : V
  display : V → String
  eq_self_of_finite : ∀ value, isFinite value = true → eq value value = true
  eq_self_of_eq : ∀ value other, eq value other = true → eq value value = true

variable {S V : Type} (ops : FloatOps V)

def eventIterationValueIsValid (kind : EventIterationValueKind) (value : V) : Bool :=
  match kind with
  | .real => ops.isFinite value
  | .integer => ops.isFinite value && ops.isIntegral value
  | .boolean => ops.eq value ops.zero || ops.eq value ops.one
  | .enumeration => ops.isFinite value && ops.atLeastOne value && ops.isIntegral value

/-! ## Advancing -/

structure HistoryRange (V : Type) where
  current : List V
  destination : Nat
  valueKind : EventIterationValueKind
  fixedPoint : Bool

def validateEventIterationValue (kind : EventIterationValueKind) (value : V) (runIndex : Nat) (lane : String) :
    Fallible Unit :=
  if eventIterationValueIsValid ops kind value then pure ()
  else throw s!"event-iteration run {runIndex} has an invalid {lane} value {ops.display value}"

def checkedRange (values : List V) (start count run : Nat) (kind : String) : Fallible (List V) :=
  orError ((checkedUsize (start + count)).bind fun last =>
      if last ≤ values.length then some ((values.drop start).take count) else none)
    s!"event-iteration run {run} {kind} range is out of bounds"

def historyRange (model : SolveModel S) (run : EventIterationRun) (index : Nat) (sourceY sourceP params : List V) :
    Fallible (Option (HistoryRange V)) := do
  let storage ← orPanic model.variableStorageRuns[run.position]?
  let clock ← ExceptT.mk (some (model.discrete.eventIterationRunClock run))
  if storage.scalarCount = 0 then pure none
  else do
    let binding ← orError model.preParamBindings[run.preBindingStart]?
      s!"event-iteration run {index} binding range is out of bounds"
    let source := binding.source.slice sourceY sourceP
    let current ← checkedRange source binding.source.index storage.scalarCount index "current"
    let pre ← checkedRange params binding.destPIndex storage.scalarCount index "pre"
    let valueKind ← orPanic storage.eventIterationKind
    (current.zip pre).forM fun lane => do
      validateEventIterationValue ops valueKind lane.1 index "current"
      validateEventIterationValue ops valueKind lane.2 index "pre"
    pure (some
      { current := current, destination := binding.destPIndex, valueKind := valueKind
        fixedPoint := clock.isNone })

def historyOwners (model : SolveModel S) (sourceY sourceP params : List V) : Fallible (List (HistoryRange V)) :=
  model.discrete.runs.zipIdx.foldlM (fun owners entry => do
    match ← historyRange ops model entry.1 entry.2 sourceY sourceP params with
    | some range => pure (owners ++ [range])
    | none => pure owners) []

structure EventIterationRange (V : Type) where
  current : List V
  pre : List V
  valueKind : EventIterationValueKind
  fixedPoint : Bool

/-- `split_at_mut`; past the end it is a panic. -/
def splitAtMut (values : List V) (mid : Nat) : Fallible (List V × List V) :=
  orPanic (if mid ≤ values.length then some (values.splitAt mid) else none)

/-- The parameters split at the ranges: each range with what stands before it, and the rest. -/
structure SplitParams (V : Type) where
  ranges : List (List V × EventIterationRange V)
  remaining : List V
  cursor : Nat

def splitOwner (split : SplitParams V) (owner : HistoryRange V) : Fallible (SplitParams V) := do
  let offset ← orError (if split.cursor ≤ owner.destination then some (owner.destination - split.cursor) else none)
    "event-iteration history ranges overlap"
  let (before, tail) ← splitAtMut split.remaining offset
  let (pre, tail) ← splitAtMut tail owner.current.length
  pure
    { ranges := split.ranges ++ [(before,
        { current := owner.current, pre := pre, valueKind := owner.valueKind, fixedPoint := owner.fixedPoint })]
      remaining := tail
      cursor := owner.destination + owner.current.length }

/-- `pre` after the copy of its current values, and whether one differed. -/
def copyLanes : (current pre : List V) → (changed : Bool) → List V × Bool
  | value :: current, old :: pre, changed =>
    let (rest, changed) := copyLanes current pre (changed || !ops.eq value old)
    (value :: rest, changed)
  | _, pre, changed => (pre, changed)

def copyRange (state : List (List V × EventIterationRange V) × Bool) (range : List V × EventIterationRange V) :
    List (List V × EventIterationRange V) × Bool :=
  if range.2.fixedPoint then
    let (pre, changed) := copyLanes ops range.2.current range.2.pre state.2
    (state.1 ++ [(range.1, { range.2 with pre := pre })], changed)
  else (state.1 ++ [range], state.2)

def copyValidatedEventIterationRanges (ranges : List (List V × EventIterationRange V)) :
    List (List V × EventIterationRange V) × Bool :=
  ranges.foldl (copyRange ops) ([], false)

def joined (ranges : List (List V × EventIterationRange V)) : List V :=
  ranges.flatMap fun range => range.1 ++ range.2.pre

def advance (model : SolveModel S) (sourceY sourceP : List V) : OnParams V Bool := do
  let owners ← reading fun params => historyOwners ops model sourceY sourceP params
  let owners := owners.insertionSort fun range other => range.destination ≤ other.destination
  let split ← reading fun params => owners.foldlM splitOwner ⟨[], params, 0⟩
  let (ranges, changed) := copyValidatedEventIterationRanges ops split.ranges
  set (joined ranges ++ split.remaining)
  pure changed

def advanceEventIterationPreParams (model : SolveModel S) (sourceY sourceP : List V) : OnParams V Bool :=
  advance ops model sourceY sourceP

/-! ## Settling -/

def laneSettled (model : SolveModel S) (y p : List V) (run : EventIterationRun) (runIndex : Nat)
    (valueKind : EventIterationValueKind) (bindingOffset : Nat) : Fallible Bool := do
  let bindingIndex := run.preBindingStart + bindingOffset
  let binding ← orError model.preParamBindings[bindingIndex]?
    s!"event-iteration run {runIndex} binding {bindingIndex} is out of bounds"
  let current ← orError (preBindingSourceValue binding y p)
    s!"event-iteration run {runIndex} current source is out of bounds"
  let pre ← orError p[binding.destPIndex]?
    s!"event-iteration run {runIndex} pre parameter {binding.destPIndex} is out of bounds"
  validateEventIterationValue ops valueKind current runIndex "current"
  validateEventIterationValue ops valueKind pre runIndex "pre"
  pure (ops.eq current pre)

def runSettled (model : SolveModel S) (y p : List V) (entry : EventIterationRun × Nat) : Fallible Bool := do
  let clock ← ExceptT.mk (some (model.discrete.eventIterationRunClock entry.1))
  if clock.isSome then pure true
  else do
    let storage ← orPanic model.variableStorageRuns[entry.1.position]?
    let valueKind ← orPanic storage.eventIterationKind
    (List.range storage.scalarCount).allM (laneSettled ops model y p entry.1 entry.2 valueKind)

def eventIterationPlanSettled (model : SolveModel S) (y p : List V) : Fallible Bool :=
  model.discrete.runs.zipIdx.allM (runSettled ops model y p)

end Rumoca.Solver
