import Rumoca.Lib.Loop
import Rumoca.Lib.PartitionPoint
import Rumoca.Machine
/-!
# Scalar output placements

Where each stored output of a block goes: densely, by ranges and lists per
program, or by one explicit list. A checked placement answers which index an
ordinal has, the first ordinal of an index, and the affine span of a run of
ordinals. `S` is the type of source spans; `none` under the errors is a panic.
-/

namespace Rumoca.Solve

open Rumoca.Lib

/-! ## Affine spans -/

/-- The outputs of a ranged store: `start`, then one `stride` further each, downwards if `descending`. -/
structure ScalarProgramOutputSpan where
  start : Nat
  stride : Nat
  descending : Bool
  count : Nat
deriving DecidableEq

namespace ScalarProgramOutputSpan

def index (span : ScalarProgramOutputSpan) (ordinal : Nat) : Option Nat :=
  if span.count ≤ ordinal then none
  else do
    let offset ← checkedUsize (ordinal * span.stride)
    if span.descending then (if offset ≤ span.start then some (span.start - offset) else none)
    else checkedUsize (span.start + offset)

def fromStartNext (start next count : Nat) : Option ScalarProgramOutputSpan := do
  let span : ScalarProgramOutputSpan :=
    { start, stride := if start ≤ next then next - start else start - next, descending := decide (next < start), count }
  if count = 0 then none
  else do
    let _ ← span.index (count - 1)
    some span

def contiguous (start count : Nat) : Option ScalarProgramOutputSpan := do
  let next ← (if 1 < count then checkedUsize (start + 1) else some start : Option Nat)
  fromStartNext start next count

def checked (indices : List Nat) : Option ScalarProgramOutputSpan := do
  let start ← indices.head?
  let next := indices[1]?.getD start
  let span ← fromStartNext start next indices.length
  if indices.zipIdx.all fun (index, ordinal) => span.index ordinal = some index then some span else none

def matchesContiguous (span : ScalarProgramOutputSpan) (start stop offset : Nat) : Bool :=
  decide (span.index offset = some start) && (decide (stop - start ≤ 1) || (!span.descending && decide (span.stride = 1)))

def matchesExplicit (span : ScalarProgramOutputSpan) (indices : List Nat) (offset : Nat) : Bool :=
  indices.zipIdx.all fun (index, ordinal) => (checkedUsize (offset + ordinal)).bind span.index = some index

end ScalarProgramOutputSpan

/-! ## Segments -/

inductive ScalarOutputSegment where
  | range (start stop : Nat)
  | explicit (indices : List Nat)

namespace ScalarOutputSegment

def checkedCount : ScalarOutputSegment → Option Nat
  | range start stop => if start ≤ stop then some (stop - start) else none
  | explicit indices => some indices.length

def indexAt (ordinal : Nat) : ScalarOutputSegment → Option Nat
  | range start stop => do
    let count ← checkedCount (range start stop)
    if ordinal < count then some (start + ordinal) else none
  | explicit indices => indices[ordinal]?

def position (output : Nat) : ScalarOutputSegment → Option Nat
  | range start stop => if start ≤ output ∧ output < stop then some (output - start) else none
  | explicit indices => indices.findIdx? (· = output)

def maximum : ScalarOutputSegment → Option Nat
  | range start stop => if start < stop then some (stop - 1) else none
  | explicit indices => indices.max?

def isDenseAt (ordinal : Nat) : ScalarOutputSegment → Bool
  | range start stop => decide (stop ≤ start) || decide (start = ordinal)
  | explicit indices => indices.zipIdx.all fun (index, offset) => checkedUsize (ordinal + offset) = some index

def matchesSpan (ordinal count : Nat) (span : ScalarProgramOutputSpan) (offset : Nat) (segment : ScalarOutputSegment) :
    Bool :=
  match checkedUsize (ordinal + count) with
  | none => false
  | some stop =>
    match segment with
    | range start _ =>
      match checkedUsize (start + ordinal), checkedUsize (start + stop) with
      | some first, some last => span.matchesContiguous first last offset
      | _, _ => false
    | explicit indices =>
      if stop ≤ indices.length then span.matchesExplicit ((indices.take stop).drop ordinal) offset else false

def indices : ScalarOutputSegment → List Nat
  | range start stop => List.range' start (stop - start)
  | explicit indices => indices

end ScalarOutputSegment

/-! ## The placement of a program -/

inductive ScalarProgramOutputPlacement where
  | range (start stop : Nat)
  | explicit (indices : List Nat)
  | segments (segments : List ScalarOutputSegment)

namespace ScalarProgramOutputPlacement

open ScalarOutputSegment (checkedCount)

def intoSegments : ScalarProgramOutputPlacement → List ScalarOutputSegment
  | range start stop => [.range start stop]
  | explicit indices => [.explicit indices]
  | segments list => list

/-- One segment of `other` after those so far: a range that goes on where the last one ends is one with it. -/
def pushSegment (segments : List ScalarOutputSegment) (segment : ScalarOutputSegment) : List ScalarOutputSegment :=
  match segments.getLast?, segment with
  | some (.range start stop), .range next last =>
    if stop = next then segments.dropLast ++ [.range start last] else segments ++ [segment]
  | _, _ => segments ++ [segment]

def concatenate (self other : ScalarProgramOutputPlacement) : ScalarProgramOutputPlacement :=
  .segments (other.intoSegments.foldl pushSegment self.intoSegments)

/-- `checked_count` over the segments. -/
def segmentsCount (segments : List ScalarOutputSegment) : Option Nat :=
  segments.foldlM (fun count segment => do checkedUsize (count + (← segment.checkedCount))) 0

/-- `index_at` over the segments. -/
def segmentsIndexAt (ordinal : Nat) : List ScalarOutputSegment → Option Nat
  | [] => none
  | segment :: rest => do
    let count ← segment.checkedCount
    if ordinal < count then segment.indexAt ordinal else segmentsIndexAt (ordinal - count) rest

/-- `position` over the segments. -/
def segmentsPosition (output ordinal : Nat) : List ScalarOutputSegment → Option Nat
  | [] => none
  | segment :: rest =>
    match segment.position output with
    | some position => checkedUsize (ordinal + position)
    | none => do
      let count ← segment.checkedCount
      let ordinal ← checkedUsize (ordinal + count)
      segmentsPosition output ordinal rest

/-- `is_dense_at` over the segments. -/
def segmentsDenseAt (ordinal : Nat) : List ScalarOutputSegment → Bool
  | [] => true
  | segment :: rest =>
    if !segment.isDenseAt ordinal then false
    else
      match segment.checkedCount.bind fun count => checkedUsize (ordinal + count) with
      | none => false
      | some next => segmentsDenseAt next rest

/-- The loop of `span`: whether the segments agree with it from `ordinal` on. -/
def segmentsMatch (span : ScalarProgramOutputSpan) (count : Nat) :
    (ordinal remaining : Nat) → List ScalarOutputSegment → Option ScalarProgramOutputSpan
  | _, _, [] => none
  | ordinal, remaining, segment :: rest => do
    let size ← segment.checkedCount
    if size ≤ ordinal then segmentsMatch span count (ordinal - size) remaining rest
    else
      let selected := min remaining (size - ordinal)
      if !segment.matchesSpan ordinal selected span (count - remaining) then none
      else if remaining - selected = 0 then some span
      else segmentsMatch span count 0 (remaining - selected) rest

def checkedCount (placement : ScalarProgramOutputPlacement) : Option Nat := segmentsCount placement.intoSegments

def indexAt (ordinal : Nat) (placement : ScalarProgramOutputPlacement) : Option Nat :=
  segmentsIndexAt ordinal placement.intoSegments

def position (output : Nat) (placement : ScalarProgramOutputPlacement) : Option Nat :=
  segmentsPosition output 0 placement.intoSegments

def maximum (placement : ScalarProgramOutputPlacement) : Option Nat :=
  (placement.intoSegments.filterMap ScalarOutputSegment.maximum).max?

def isDenseAt (ordinal : Nat) (placement : ScalarProgramOutputPlacement) : Bool :=
  segmentsDenseAt ordinal placement.intoSegments

def span (ordinal count : Nat) (placement : ScalarProgramOutputPlacement) : Option ScalarProgramOutputSpan := do
  let first ← placement.indexAt ordinal
  let next ← (if 1 < count then (checkedUsize (ordinal + 1)).bind (placement.indexAt ·) else some first : Option Nat)
  let span ← ScalarProgramOutputSpan.fromStartNext first next count
  segmentsMatch span count ordinal count placement.intoSegments

def indices (placement : ScalarProgramOutputPlacement) : List Nat :=
  placement.intoSegments.flatMap ScalarOutputSegment.indices

end ScalarProgramOutputPlacement

/-! ## Errors -/

inductive SolveProblemShapeContractError (S : Type) where
  | scalarProgramCountMismatch (context : String) (expected actual : Nat) (span : Option S)
  | scalarProgramSpanMismatch (context : String) (nodeIndex programs spans : Nat) (span : Option S)
  | scalarProgramOutputIndexMismatch (context : String) (nodeIndex programs outputIndices : Nat) (span : Option S)
  | outputIndexOverflow (context : String) (nodeIndex : Nat) (span : Option S)

abbrev Shaped (S : Type) := ExceptT (SolveProblemShapeContractError S) Option

variable {S : Type}

def validateScalarProgramMetadataLengths (context : String)
    (nodeIndex programs spans storedOutputs outputIndices : Nat) (span : Option S) : Shaped S Unit :=
  if spans ≠ programs then throw (.scalarProgramSpanMismatch context nodeIndex programs spans span)
  else if outputIndices ≠ storedOutputs then
    throw (.scalarProgramOutputIndexMismatch context nodeIndex storedOutputs outputIndices span)
  else pure ()

def checkCount (expected actual program : Nat) (span : Option S) : Shaped S Unit :=
  validateScalarProgramMetadataLengths "ScalarProgramBlock" program 1 1 expected actual span

/-! ## The placements of a block -/

inductive ScalarOutputPlacementsWire where
  | dense (count : Nat)
  | programRanges (entries : List ScalarProgramOutputPlacement)
  | explicit (indices : List Nat)

def ScalarOutputPlacementsWire.indices : ScalarOutputPlacementsWire → List Nat
  | .dense count => List.range count
  | .programRanges entries => entries.flatMap ScalarProgramOutputPlacement.indices
  | .explicit indices => indices

inductive PlacementKind where
  | dense
  | programRanges (entries : List ScalarProgramOutputPlacement)
  | explicit (indices ordinals : List Nat)

structure ScalarOutputPlacements where
  kind : PlacementKind
  count : Nat
  maximum : Option Nat

namespace ScalarOutputPlacements

def indices (placements : ScalarOutputPlacements) : List Nat :=
  match placements.kind with
  | .dense => List.range placements.count
  | .programRanges entries => entries.flatMap ScalarProgramOutputPlacement.indices
  | .explicit indices _ => indices

/-- The order of `(indices[ordinal], ordinal)`. -/
def ordinalLe (indices : List Nat) (a b : Nat) : Bool :=
  decide (indices.getD a 0 < indices.getD b 0 ∨ indices.getD a 0 = indices.getD b 0 ∧ a ≤ b)

def fromExplicit (indices : List Nat) (count : Nat) : ScalarOutputPlacements where
  kind :=
    if indices.zipIdx.all fun (index, ordinal) => ordinal = index then .dense
    else .explicit indices ((List.range indices.length).mergeSort (ordinalLe indices))
  count
  maximum := indices.max?

/-- The pass over the entries: where each one starts, whether all are dense so far, and the largest index. -/
structure RangesPass where
  start : Nat := 0
  dense : Bool := true
  maximum : Option Nat := none

/-- The larger of two optional indices, `None` being the least. -/
def maxIndex : Option Nat → Option Nat → Option Nat
  | some a, some b => some (max a b)
  | some a, none => some a
  | none, b => b

def rangesStep (programEnds : List Nat) (spans : List S) (s : RangesPass)
    (entry : ScalarProgramOutputPlacement × Nat) : Shaped S RangesPass := do
  let (placement, program) := entry
  let actual ←
    match placement.checkedCount with
    | some actual => pure actual
    | none => throw (.outputIndexOverflow "ScalarProgramBlock" program spans[program]?)
  match programEnds[program]? with
  | none => ExceptT.mk none
  | some stop => do
    if stop < s.start then ExceptT.mk none
    checkCount (stop - s.start) actual program spans[program]?
    if placement.maximum = some (usizeLimit - 1) then
      throw (.outputIndexOverflow "ScalarProgramBlock" program spans[program]?)
    pure ⟨stop, s.dense && placement.isDenseAt s.start, maxIndex s.maximum placement.maximum⟩

def fromProgramRanges (entries : List ScalarProgramOutputPlacement) (programEnds : List Nat) (spans : List S)
    (count : Nat) : Shaped S ScalarOutputPlacements := do
  let s ← entries.zipIdx.foldlM (rangesStep programEnds spans) {}
  pure { kind := if s.dense then .dense else .programRanges entries, count, maximum := s.maximum }

def checked (wire : ScalarOutputPlacementsWire) (programEnds : List Nat) (spans : List S) :
    Shaped S ScalarOutputPlacements := do
  let count := programEnds.getLast?.getD 0
  let span := spans.head?
  match wire with
  | .dense actual => do
    checkCount count actual 0 span
    pure { kind := .dense, count, maximum := if count = 0 then none else some (count - 1) }
  | .explicit indices => do
    checkCount count indices.length 0 span
    match indices.findIdx? (· = usizeLimit - 1) with
    | some ordinal =>
      let program := partitionPoint (fun stop => decide (stop ≤ ordinal)) programEnds
      throw (.outputIndexOverflow "ScalarProgramBlock" program spans[program]?)
    | none => pure (fromExplicit indices count)
  | .programRanges entries =>
    if entries.length ≠ programEnds.length then
      throw (.scalarProgramCountMismatch "ScalarProgramBlock.output_placements" programEnds.length entries.length span)
    else fromProgramRanges entries programEnds spans count

/-- The first ordinal of a program; `program_ends` has the program before. -/
def programStart (programEnds : List Nat) : (program : Nat) → Nat
  | 0 => 0
  | program + 1 => programEnds.getD program 0

def indexAt (placements : ScalarOutputPlacements) (ordinal : Nat) (programEnds : List Nat) : Option Nat :=
  if placements.count ≤ ordinal then none
  else
    match placements.kind with
    | .dense => some ordinal
    | .explicit indices _ => indices[ordinal]?
    | .programRanges entries => do
      let program := partitionPoint (fun stop => decide (stop ≤ ordinal)) programEnds
      let entry ← entries[program]?
      entry.indexAt (ordinal - programStart programEnds program)

def spanForOrdinals (placements : ScalarOutputPlacements) (ordinal count : Nat) (programEnds : List Nat) :
    Option ScalarProgramOutputSpan := do
  let stop ← checkedUsize (ordinal + count)
  if count = 0 ∨ placements.count < stop then none
  else
    match placements.kind with
    | .dense => ScalarProgramOutputSpan.contiguous ordinal count
    | .explicit indices _ =>
      if stop ≤ indices.length then ScalarProgramOutputSpan.checked ((indices.take stop).drop ordinal) else none
    | .programRanges entries => do
      let program := partitionPoint (fun stop => decide (stop ≤ ordinal)) programEnds
      let programEnd ← programEnds[program]?
      if programEnd < stop then none
      else do
        let entry ← entries[program]?
        entry.span (ordinal - programStart programEnds program) count

def ordinalForOutput (placements : ScalarOutputPlacements) (output : Nat) (programEnds : List Nat) : Option Nat :=
  match placements.kind with
  | .dense => if output < placements.count then some output else none
  | .explicit indices ordinals => do
    let position := partitionPoint (fun ordinal => decide (indices.getD ordinal 0 < output)) ordinals
    let ordinal ← ordinals[position]?
    if indices.getD ordinal 0 = output then some ordinal else none
  | .programRanges entries =>
    entries.zipIdx.findSome? fun (entry, program) =>
      (entry.position output).map fun position => programStart programEnds program + position

end ScalarOutputPlacements

end Rumoca.Solve
