import Rumoca.Lib.Loop
import Rumoca.Lib.PartitionPoint
import Rumoca.Lib.SortedMap
import Rumoca.Machine
import Rumoca.Solve.StorageRunIndex
/-!
# Projection stages

An owner of projection stages answers two questions from tables built with it:
the solver-Y target of a row, which the first stage and position that claim the
row decide, and the scalar block at a position of the stages' blocks in order.
A claim takes the rows that no earlier claim owns.
-/

namespace Rumoca.Solve

open Rumoca.Lib

/-! ## Stages -/

/-- Target rows, their Y indices by position, and the solution charts of the block. -/
structure AlgebraicProjectionBlock (Tearing Chart : Type) where
  rows : List Nat
  yIndices : List Nat
  tearing : Option Tearing
  alternateCharts : List Chart

/-- A coupled block, or a run of singleton blocks over consecutive rows and Y indices. -/
inductive ProjectionStage (Tearing Chart : Type) where
  | explicit (block : AlgebraicProjectionBlock Tearing Chart)
  | singletonDeclarationRun (firstRow : Nat) (storage : SolveVariableStorageRun)

/-- A run of rows with consecutive targets, or with none. -/
structure RowSegment where
  start : Nat
  len : Nat
  yStart : Option Nat

variable {Tearing Chart : Type}

/-- `usize::saturating_add`. -/
def saturatingAddUsize (a b : Nat) : Nat := min (a + b) (usizeLimit - 1)

def scalarSlotY (index : Nat) : ScalarSlot := .y index (min (index * 8) (usizeLimit - 1))

/-- `end`. -/
def RowSegment.stop (segment : RowSegment) : Nat := saturatingAddUsize segment.start segment.len

def stageBlockCount : ProjectionStage Tearing Chart → Nat
  | .explicit _ => 1
  | .singletonDeclarationRun _ storage => storage.scalarCount

def stageSegments : ProjectionStage Tearing Chart → Option (List RowSegment)
  | .explicit block => some (block.rows.zipIdx.map fun (row, position) => ⟨row, 1, block.yIndices[position]?⟩)
  | .singletonDeclarationRun firstRow storage =>
    match storage.base with
    | .y index _ => some [⟨firstRow, storage.scalarCount, some index⟩]
    | _ => none

/-! ## Claims -/

/-- The rows of `[cursor, stop)` between the segments, in ascending order. -/
def gaps (stop : Nat) : List RowSegment → (cursor : Nat) → List (Nat × Nat)
  | [], cursor => if cursor < stop then [(cursor, stop)] else []
  | existing :: rest, cursor =>
    (if cursor < existing.start then [(cursor, existing.start)] else []) ++ gaps stop rest (max cursor existing.stop)

/-- The part of a segment in `[start, stop)`. -/
def RowSegment.piece (segment : RowSegment) (start stop : Nat) : RowSegment where
  start
  len := stop - start
  yStart := segment.yStart.bind fun y => checkedUsize (y + (start - segment.start))

def claim (claimed : List (Nat × RowSegment)) (segment : RowSegment) : List (Nat × RowSegment) :=
  let overlapping := ((claimed.filter (·.1 < segment.stop)).reverse.takeWhile (segment.start < ·.2.stop)).reverse
  (gaps segment.stop (overlapping.map Prod.snd) segment.start).foldl
    (fun claimed piece => insertKey piece.1 (segment.piece piece.1 piece.2) claimed) claimed

/-! ## The tables -/

structure StageIndex where
  rows : List RowSegment
  blocks : List (Nat × Nat)

/-- The claims and the first ordinals so far, and the ordinal of the next block. -/
structure StageIndex.Building where
  claimed : List (Nat × RowSegment)
  blocks : List (Nat × Nat)
  ordinal : Nat

/-- `get(partition_point(p) - 1)`. -/
def beforePartition {α : Type} (p : α → Bool) (l : List α) : Option α :=
  match partitionPoint p l with
  | 0 => none
  | after + 1 => l[after]?

namespace StageIndex

def buildStage (building : Building) (entry : ProjectionStage Tearing Chart × Nat) : Option Building := do
  let (stage, stageIndex) := entry
  let count := stageBlockCount stage
  let segments ← stageSegments stage
  pure {
    claimed := segments.foldl claim building.claimed
    blocks := if 0 < count then building.blocks ++ [(building.ordinal, stageIndex)] else building.blocks
    ordinal := saturatingAddUsize building.ordinal count }

def build (stages : List (ProjectionStage Tearing Chart)) : Option StageIndex := do
  let building ← stages.zipIdx.foldlM buildStage ⟨[], [], 0⟩
  pure ⟨building.claimed.map Prod.snd, building.blocks⟩

def targetAt (index : StageIndex) (row : Nat) : Option ScalarSlot := do
  let segment ← beforePartition (·.start ≤ row) index.rows
  let offset := row - segment.start
  if segment.len ≤ offset then none
  else do
    let y ← segment.yStart
    (checkedUsize (y + offset)).map scalarSlotY

def stageOfBlock (table : StageIndex) (stages : List (ProjectionStage Tearing Chart)) (index : Nat) :
    Option (ProjectionStage Tearing Chart × Nat) := do
  let (first, stageIndex) ← beforePartition (·.1 ≤ index) table.blocks
  let stage ← stages[stageIndex]?
  let offset := index - first
  if offset < stageBlockCount stage then some (stage, offset) else none

end StageIndex

/-! ## The owner -/

structure ProjectionBlocks (Tearing Chart : Type) where
  stages : List (ProjectionStage Tearing Chart)
  blockCount : Nat
  rowBound : Nat
  index : StageIndex

def stageOverflow : String := "projection stage ordinal overflows host range"

def stageBounds : ProjectionStage Tearing Chart → Fallible (Nat × Nat)
  | .explicit block => do
    let bound ← block.rows.foldlM (fun bound row => do
      let stop ← orError (checkedUsize (row + 1)) stageOverflow
      pure (max bound stop)) 0
    pure (1, bound)
  | .singletonDeclarationRun firstRow storage =>
    match storage.base with
    | .y index _ => do
      let _ ← orError (checkedUsize (index + storage.scalarCount)) stageOverflow
      let stop ← orError (checkedUsize (firstRow + storage.scalarCount)) stageOverflow
      pure (storage.scalarCount, stop)
    | _ => throw "singleton declaration run requires Y storage"

namespace ProjectionBlocks

def ofBlocks (blocks : List (AlgebraicProjectionBlock Tearing Chart)) : Option (ProjectionBlocks Tearing Chart) := do
  let stages := blocks.map .explicit
  let index ← StageIndex.build stages
  pure {
    stages
    blockCount := blocks.length
    rowBound := (blocks.flatMap (·.rows)).foldl (fun bound row => max bound (saturatingAddUsize row 1)) 0
    index }

def fromStages (stages : List (ProjectionStage Tearing Chart)) : Fallible (ProjectionBlocks Tearing Chart) := do
  let (blockCount, rowBound) ← stages.foldlM (fun bounds stage => do
    let (count, bound) ← stageBounds stage
    let blockCount ← orError (checkedUsize (bounds.1 + count)) stageOverflow
    pure (blockCount, max bounds.2 bound)) (0, 0)
  let index ← orPanic (StageIndex.build stages)
  pure { stages, blockCount, rowBound, index }

/-- Rewrite the coupled block of a stage. The closure may answer each position in its own way. -/
def transformStage
    (transform : Nat → AlgebraicProjectionBlock Tearing Chart → Fallible (AlgebraicProjectionBlock Tearing Chart)) :
    ProjectionStage Tearing Chart × Nat → Fallible (ProjectionStage Tearing Chart)
  | (.explicit block, position) => do
    let block ← transform position block
    pure (.explicit block)
  | (.singletonDeclarationRun firstRow storage, _) => pure (.singletonDeclarationRun firstRow storage)

def mapExplicitBlocks (blocks : ProjectionBlocks Tearing Chart)
    (transform : Nat → AlgebraicProjectionBlock Tearing Chart → Fallible (AlgebraicProjectionBlock Tearing Chart)) :
    Fallible (ProjectionBlocks Tearing Chart) := do
  let stages ← blocks.stages.zipIdx.mapM (transformStage transform)
  let index ← orPanic (StageIndex.build stages)
  pure { blocks with stages, index }

def len (blocks : ProjectionBlocks Tearing Chart) : Nat := blocks.blockCount

def targetAtRow (blocks : ProjectionBlocks Tearing Chart) (row : Nat) : Option ScalarSlot := blocks.index.targetAt row

def singletonBlock (firstRow : Nat) (storage : SolveVariableStorageRun) (offset : Nat) :
    Option (AlgebraicProjectionBlock Tearing Chart) :=
  match storage.base with
  | .y base _ => do
    let row ← checkedUsize (firstRow + offset)
    let y ← checkedUsize (base + offset)
    pure ⟨[row], [y], none, []⟩
  | _ => none

def scalarBlockAt (blocks : ProjectionBlocks Tearing Chart) (index : Nat) :
    Option (AlgebraicProjectionBlock Tearing Chart) := do
  match ← blocks.index.stageOfBlock blocks.stages index with
  | (.explicit block, _) => some block
  | (.singletonDeclarationRun firstRow storage, offset) => singletonBlock firstRow storage offset

def scalarStage : ProjectionStage Tearing Chart → Option (List (AlgebraicProjectionBlock Tearing Chart))
  | .explicit block => some [block]
  | .singletonDeclarationRun firstRow storage =>
    match storage.base with
    | .y index _ => (List.range storage.scalarCount).mapM fun offset => do
      let row ← checkedUsize (firstRow + offset)
      let y ← checkedUsize (index + offset)
      pure ⟨[row], [y], none, []⟩
    | _ => none

def scalarBlocks (blocks : ProjectionBlocks Tearing Chart) : Option (List (AlgebraicProjectionBlock Tearing Chart)) :=
  (blocks.stages.mapM scalarStage).map List.flatten

end ProjectionBlocks

/-! ## The ordered walk -/

def stageClaim (row : Nat) : ProjectionStage Tearing Chart → Option (Option ScalarSlot)
  | .explicit block => (block.rows.findIdx? (· == row)).map fun position => block.yIndices[position]?.map scalarSlotY
  | .singletonDeclarationRun firstRow storage =>
    if firstRow ≤ row ∧ row - firstRow < storage.scalarCount then
      match storage.base with
      | .y index _ => some ((checkedUsize (index + (row - firstRow))).map scalarSlotY)
      | _ => none
    else none

def walkedTarget (stages : List (ProjectionStage Tearing Chart)) (row : Nat) : Option ScalarSlot :=
  (stages.findSome? (stageClaim row)).join

end Rumoca.Solve
