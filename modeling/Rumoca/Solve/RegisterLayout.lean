import Mathlib.Data.List.Sort
import Rumoca.Lib.PartitionPoint
import Rumoca.Solve.DeadOperations
import Rumoca.Solve.Relocate
/-!
# Register layouts

`RegisterLayout.derive` places the registers of a program in an arena. The
destinations and the operand selections of its operations, where they overlap,
merge into components, which move as one. A component lives from its first
definition to its last use; components that live at one time are placed apart,
the widest first.
-/

namespace Rumoca.Solve

open Rumoca.Lib

variable {F : Type}

/-- Registers from `start` up to `stop`, live from operation `first` to operation `last`. -/
structure Component where
  start : Nat
  stop : Nat
  first : Nat
  last : Nat
  physical : Nat
deriving DecidableEq, Repr

namespace Component

def width (component : Component) : Nat := component.stop - component.start

end Component

structure RegisterLayout where
  components : List Component
  extent : Nat
deriving DecidableEq, Repr

/-- The pieces of an operation's operands with one selection: their registers and their first producer. -/
structure Selection where
  key : Nat × Nat
  start : Nat
  stop : Nat
  producer : Nat

namespace RegisterLayout

/-! ## Constraints -/

def extendSelection (entry : Selection) (piece : RegisterOperandPiece) : Selection :=
  { entry with
    start := min entry.start piece.registers.1
    stop := max entry.stop piece.registers.2
    producer := min entry.producer piece.producer }

/-- One piece's turn: `entry(piece.selection())` extended, or inserted. -/
def recordPiece (selections : List Selection) (piece : RegisterOperandPiece) : List Selection :=
  let key := (piece.selectionStart, piece.selectionStride)
  if selections.any fun entry => entry.key = key then
    selections.map fun entry => if entry.key = key then extendSelection entry piece else entry
  else selections ++ [⟨key, piece.registers.1, piece.registers.2, piece.producer⟩]

def selections (operands : List RegisterOperandPiece) : List Selection :=
  (operands.foldl recordPiece []).insertionSort fun entry other => toLex entry.key ≤ toLex other.key

def operationConstraints (entry : RegisterOperationVersions × Nat) : List Component :=
  (match entry.1.destination with
    | some (start, storage, stop) => [⟨start, start + (stop - storage), entry.2, entry.2, 0⟩]
    | none => []) ++
    (selections entry.1.operands).map fun selection =>
      ⟨selection.start, selection.stop, selection.producer, entry.2, 0⟩

def constraints (versions : RegisterVersionProgram) : List Component :=
  ((versions.operations.zipIdx.flatMap operationConstraints).filter fun component =>
    component.start < component.stop).insertionSort fun component other =>
      toLex (component.start, component.stop) ≤ toLex (other.start, other.stop)

def mergeConstraint (components : List Component) (constraint : Component) : List Component :=
  match components.getLast? with
  | some previous =>
    if constraint.start < previous.stop then
      components.dropLast ++
        [{ previous with
            stop := max previous.stop constraint.stop
            first := min previous.first constraint.first
            last := max previous.last constraint.last }]
    else components ++ [constraint]
  | none => components ++ [constraint]

def mergeConstraints (constraints : List Component) : List Component := constraints.foldl mergeConstraint []

/-! ## Allocation -/

/-- The placed components, as far as allocation has gone. -/
structure Allocation where
  components : List Component
  placed : List Nat
  extent : Nat

def allocationOrder (components : List Component) : List Nat :=
  let key (index : Nat) : ℕᵒᵈ ×ₗ (ℕᵒᵈ ×ₗ ℕ) :=
    match components[index]? with
    | some component =>
      toLex (OrderDual.toDual component.width,
        toLex (OrderDual.toDual (component.last - component.first), component.start))
    | none => toLex (OrderDual.toDual 0, toLex (OrderDual.toDual 0, 0))
  (List.range components.length).insertionSort fun a b => key a ≤ key b

def placementOverflow : String := "native register placement overflows"

/-- The ranges that the components placed so far and live together with `current` take. -/
def occupiedRanges (components : List Component) (placed : List Nat) (current : Component) :
    Fallible (List (Nat × Nat)) :=
  placed.foldlM (fun occupied index => do
    let other ← orPanic components[index]?
    if other.first ≤ current.last ∧ current.first ≤ other.last then
      let stop ← orError (checkedUsize (other.physical + other.width)) placementOverflow
      pure (occupied ++ [(other.physical, stop)])
    else pure occupied) []

/-- The first gap of `width` between sorted ranges. -/
def firstGap (width : Nat) : (occupied : List (Nat × Nat)) → (physical : Nat) → Fallible Nat
  | [], physical => pure physical
  | range :: rest, physical => do
    let stop ← orError (checkedUsize (physical + width)) placementOverflow
    if stop ≤ range.1 then pure physical else firstGap width rest (max physical range.2)

def allocateComponent (s : Allocation) (index : Nat) : Fallible Allocation := do
  let current ← orPanic s.components[index]?
  let occupied ← occupiedRanges s.components s.placed current
  let occupied := occupied.insertionSort fun range other => toLex range ≤ toLex other
  let physical ← firstGap current.width occupied 0
  let stop ← orError (checkedUsize (physical + current.width)) placementOverflow
  pure
    { components := s.components.set index { current with physical := physical }
      placed := s.placed ++ [index]
      extent := max s.extent stop }

def allocate (components : List Component) : Fallible Allocation :=
  (allocationOrder components).foldlM allocateComponent ⟨components, [], 0⟩

/-! ## The layout -/

def derive (program : List (LinearOp F)) : Fallible RegisterLayout := do
  let versions ← orError (RegisterVersionProgram.derive program)
    "native register layout requires canonical register versions"
  let allocation ← allocate (mergeConstraints (constraints versions))
  pure { components := allocation.components, extent := allocation.extent }

def virtualExtent (layout : RegisterLayout) : Nat := (layout.components.getLast?.map (·.stop)).getD 0

def physical (layout : RegisterLayout) (register : Reg) : Except String Reg :=
  let index := partitionPoint (fun component => decide (component.start ≤ register)) layout.components
  let component := do
    let index ← if 1 ≤ index then some (index - 1) else none
    let component ← layout.components[index]?
    if component.start ≤ register ∧ register < component.stop then some component else none
  match component with
  | none => .error "native register has no original placement"
  | some component =>
    match (checkedUsize (component.physical + (register - component.start))).bind checkedU32 with
    | none => .error "native physical register overflows"
    | some physical => .ok physical

end RegisterLayout

end Rumoca.Solve
