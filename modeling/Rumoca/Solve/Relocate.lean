import Rumoca.Lib.Relocation
import Rumoca.Solve.ReadRanges
/-!
# Operations with their registers moved

`LinearOp.relocate` replaces every register field of an operation. What it
reads and writes moves along where each range that it names stays one range.
-/

namespace Rumoca.Solve

open Rumoca.Lib RegisterReadRange

variable {F : Type}

def TensorIndex.relocate (place : Reg → Reg) : TensorIndex → TensorIndex
  | .constant coordinate => .constant coordinate
  | .runtime register => .runtime (place register)

def TensorUpdateSubscript.relocate (place : Reg → Reg) : TensorUpdateSubscript → TensorUpdateSubscript
  | .whole => .whole
  | .index axis => .index (axis.relocate place)
  | .slice start dimensions => .slice (place start) dimensions

def FoldTensorUpdate.relocate (place : Reg → Reg) (update : FoldTensorUpdate) : FoldTensorUpdate :=
  { update with
    subscripts := update.subscripts.map (·.relocate place)
    condition := update.condition.map place
    valueStart := place update.valueStart }

def FoldTensorNode.relocate (place : Reg → Reg) : FoldTensorNode → FoldTensorNode
  | .update base slot => .update base slot
  | .select condition ifTrue ifFalse => .select (place condition) ifTrue ifFalse

def FoldInitialSource.relocate (place : Reg → Reg) : FoldInitialSource → FoldInitialSource
  | .registers start count => .registers (place start) count
  | .parentCarried base count => .parentCarried base count

namespace LinearOp

/-- The operation with every register field replaced. The bodies of folds and conditionals have
registers of their own. -/
def relocate (place : Reg → Reg) : LinearOp F → LinearOp F
  | .const dst value => .const (place dst) value
  | .loadTime dst => .loadTime (place dst)
  | .loadY dst index => .loadY (place dst) index
  | .loadP dst index => .loadP (place dst) index
  | .loadIndexedP dst base count index => .loadIndexedP (place dst) base count (place index)
  | .loadIndexedRegister dst base stride dimensions indices =>
    .loadIndexedRegister (place dst) (place base) stride dimensions (indices.map (·.relocate place))
  | .loadIndexedFoldCarried dst base stride dimensions indices =>
    .loadIndexedFoldCarried (place dst) base stride dimensions (indices.map (·.relocate place))
  | .loadIndexedFoldCapture dst base stride dimensions indices =>
    .loadIndexedFoldCapture (place dst) base stride dimensions (indices.map (·.relocate place))
  | .loadSeed dst index => .loadSeed (place dst) index
  | .loadFoldCarried dst index => .loadFoldCarried (place dst) index
  | .loadFoldIndex dst dimension => .loadFoldIndex (place dst) dimension
  | .loadFoldCapture dst index => .loadFoldCapture (place dst) index
  | .loadFunctionConditionalCapture dst index => .loadFunctionConditionalCapture (place dst) index
  | .loadFunctionConditionalCaptureRange dst start count =>
    .loadFunctionConditionalCaptureRange (place dst) start count
  | .loadIndexedSeed dst base count index => .loadIndexedSeed (place dst) base count (place index)
  | .move dst src => .move (place dst) (place src)
  | .linearSolveComponent dst matrixStart rhsStart n component =>
    .linearSolveComponent (place dst) (place matrixStart) (place rhsStart) n component
  | .dotProduct dst lhsStart rhsStart count lhsStride rhsStride =>
    .dotProduct (place dst) (place lhsStart) (place rhsStart) count lhsStride rhsStride
  | .matrixMultiply dst lhsStart rhsStart rows inner columns lanes =>
    .matrixMultiply (place dst) (place lhsStart) (place rhsStart) rows inner columns lanes
  | .tensorBinary dst op lhsStart rhsStart count lhsStride rhsStride lanes =>
    .tensorBinary (place dst) op (place lhsStart) (place rhsStart) count lhsStride rhsStride lanes
  | .tensorCross dst lhsStart rhsStart lanes => .tensorCross (place dst) (place lhsStart) (place rhsStart) lanes
  | .tensorTranspose dst srcStart rows columns elementWidth lanes =>
    .tensorTranspose (place dst) (place srcStart) rows columns elementWidth lanes
  | .tensorConcatenate dst sources dimensions axis lanes =>
    .tensorConcatenate (place dst) (sources.map fun source => { source with start := place source.start }) dimensions
      axis lanes
  | .tensorUpdate dst baseStart valueStart dimensions subscripts lanes =>
    .tensorUpdate (place dst) (place baseStart) (place valueStart) dimensions (subscripts.map (·.relocate place)) lanes
  | .tensorFill dst valueStart count lanes => .tensorFill (place dst) (place valueStart) count lanes
  | .tensorIdentity dst size lanes => .tensorIdentity (place dst) size lanes
  | .tensorLoad dst input inputStart count seedStart lanes =>
    .tensorLoad (place dst) input inputStart count seedStart lanes
  | .tableBounds dst tableId max => .tableBounds (place dst) (place tableId) max
  | .tableLookup dst tableId column input => .tableLookup (place dst) (place tableId) (place column) (place input)
  | .tableLookupSlope dst tableId column input =>
    .tableLookupSlope (place dst) (place tableId) (place column) (place input)
  | .tableNextEvent dst tableId time => .tableNextEvent (place dst) (place tableId) (place time)
  | .randomInitialState dst generator localSeed globalSeed stateLen stateIndex =>
    .randomInitialState (place dst) generator (place localSeed) (place globalSeed) stateLen stateIndex
  | .randomResult dst generator stateStart stateLen => .randomResult (place dst) generator (place stateStart) stateLen
  | .randomState dst generator stateStart stateLen stateIndex =>
    .randomState (place dst) generator (place stateStart) stateLen stateIndex
  | .impureRandomInit dst seed => .impureRandomInit (place dst) (place seed)
  | .impureRandom dst id callSite => .impureRandom (place dst) (place id) callSite
  | .impureRandomInteger dst id imin imax callSite =>
    .impureRandomInteger (place dst) (place id) (place imin) (place imax) callSite
  | .unary dst op arg => .unary (place dst) op (place arg)
  | .binary dst op lhs rhs => .binary (place dst) op (place lhs) (place rhs)
  | .compare dst op lhs rhs => .compare (place dst) op (place lhs) (place rhs)
  | .select dst cond ifTrue ifFalse => .select (place dst) (place cond) (place ifTrue) (place ifFalse)
  | .functionFold dst initialStart captureStart program =>
    .functionFold (place dst) (place initialStart) (place captureStart) program
  | .guardedFunctionFold dst initialStart captureStart activation program =>
    .guardedFunctionFold (place dst) (place initialStart) (place captureStart) (place activation) program
  | .functionConditional dst captureStart program => .functionConditional (place dst) (place captureStart) program
  | .pureCall dst inputStarts site => .pureCall (place dst) (inputStarts.map place) site
  | .pureCallObservation dst inputStarts site => .pureCallObservation (place dst) (inputStarts.map place) site
  | .pureCallDirectional dst inputStarts site => .pureCallDirectional (place dst) (inputStarts.map place) site
  | .storeOutputFoldTensorUpdate sourceBase sourceStride dimensions updates nodes result lanes =>
    .storeOutputFoldTensorUpdate sourceBase sourceStride dimensions (updates.map (·.relocate place))
      (nodes.map (·.relocate place)) result lanes
  | .storeOutputFunctionFold initial captureStart program resultBase count condition nestedWhenTrue =>
    .storeOutputFunctionFold (initial.map (·.relocate place)) (place captureStart) program resultBase count
      (condition.map place) nestedWhenTrue
  | .storeOutputRange start count stride => .storeOutputRange (place start) count stride
  | .storeOutput src => .storeOutput (place src)

variable (place : Reg → Reg)

@[simp] theorem dstRegister_relocate (op : LinearOp F) : (op.relocate place).dstRegister = op.dstRegister.map place := by
  cases op <;> rfl

@[simp] theorem dstRegisterCount_relocate (op : LinearOp F) :
    (op.relocate place).dstRegisterCount = op.dstRegisterCount := by
  cases op <;> rfl

end LinearOp

def RegisterReadRange.relocate (place : Reg → Reg) (read : RegisterReadRange) : RegisterReadRange :=
  { read with start := place read.start }

variable (place : Reg → Reg)

theorem indexRange_relocate (index : TensorIndex) :
    indexRange (index.relocate place) = (indexRange index).map (·.relocate place) := by
  cases index <;> rfl

theorem updateRanges_relocate (valueStart : Reg) (axes : List (Nat × TensorUpdateSubscript)) (valueCount : Nat) :
    updateRanges (place valueStart) (axes.map fun axis => (axis.1, axis.2.relocate place)) valueCount =
      (updateRanges valueStart axes valueCount).map (·.relocate place) := by
  induction axes generalizing valueCount with
  | nil => rfl
  | cons axis axes ih =>
    obtain ⟨extent, subscript⟩ := axis
    cases subscript with
    | whole => exact ih _
    | index axis =>
      change updateRanges _ ((extent, .index (axis.relocate place)) :: axes.map _) _ = _
      rw [updateRanges, updateRanges, List.map_append, ih, indexRange_relocate]
    | slice start dimensions =>
      change updateRanges _ ((extent, .slice (place start) dimensions) :: axes.map _) _ = _
      rw [updateRanges, updateRanges, List.map_cons, ih]
      rfl

theorem zip_map_relocate {α β γ : Type} (f : β → γ) (xs : List α) (ys : List β) :
    xs.zip (ys.map f) = (xs.zip ys).map fun pair => (pair.1, f pair.2) := by
  rw [List.zip_map_right]
  rfl

theorem recordedRanges_relocate (op : LinearOp F) :
    recordedRanges (op.relocate place) = (recordedRanges op).map (·.relocate place) := by
  cases op with
  | loadIndexedRegister dst base stride dimensions indices =>
    simp only [LinearOp.relocate, recordedRanges, List.map_cons, zip_map_relocate, List.flatMap_map, List.map_flatMap,
      indexRange_relocate]
    rfl
  | pureCall dst inputStarts site | pureCallDirectional dst inputStarts site | pureCallObservation dst inputStarts site =>
    simp only [LinearOp.relocate, recordedRanges, List.zip_map_left, List.map_map]
    rfl
  | tensorConcatenate dst sources dimensions axis lanes =>
    simp only [LinearOp.relocate, recordedRanges, List.map_map]
    rfl
  | tensorUpdate dst baseStart valueStart dimensions subscripts lanes =>
    simp only [LinearOp.relocate, recordedRanges, zip_map_relocate, updateRanges_relocate, List.map_cons]
    rfl
  | functionConditional dst captureStart program =>
    simp only [LinearOp.relocate, recordedRanges]
    split <;> rfl
  | functionFold dst initialStart captureStart program
  | guardedFunctionFold dst initialStart captureStart activation program =>
    simp only [LinearOp.relocate, recordedRanges, foldRanges]
    split <;> rfl
  | _ => rfl

/-! ## What a moved operation reads and writes -/

def rangeAccesses (F : Type) : Accesses (LinearOp F) where
  reads op := (recordedRanges op).flatMap RegisterReadRange.registers
  writes := LinearOp.destination

theorem reads_of_valid {p : List (LinearOp F)} (h : FlowValid p) {op : LinearOp F} (hop : op ∈ p) :
    (rangeAccesses F).reads op = op.sources := by
  obtain ⟨registers, hregisters⟩ := Option.isSome_iff_exists.1 (((flowValid_iff p).1 h).1 op hop).sources
  rw [LinearOp.sources, hregisters, Option.getD_some, records_opSources op registers hregisters]
  rfl

/-- The placement moves the destination of the operation, and each range that it reads, as one. -/
structure KeepsRanges (place : Reg → Reg) (op : LinearOp F) : Prop where
  destination : ∀ start, op.dstRegister = some start → ∀ offset < op.dstRegisterCount,
    place (start + offset) = place start + offset
  ranges : ∀ read ∈ recordedRanges op, ∀ term < read.count,
    place (read.start + term * read.stride) = place read.start + term * read.stride

variable {place}

theorem KeepsRanges.reads {op : LinearOp F} (h : KeepsRanges place op) :
    (rangeAccesses F).reads (op.relocate place) = ((rangeAccesses F).reads op).map place := by
  simp only [rangeAccesses, recordedRanges_relocate, List.flatMap_map, List.map_flatMap]
  refine List.flatMap_congr fun read hread => ?_
  simp only [RegisterReadRange.registers, RegisterReadRange.relocate, List.map_map]
  exact List.map_congr_left fun term hterm => (h.ranges read hread term (List.mem_range.1 hterm)).symm

theorem KeepsRanges.writes {op : LinearOp F} (h : KeepsRanges place op) :
    (rangeAccesses F).writes (op.relocate place) = ((rangeAccesses F).writes op).map place := by
  simp only [rangeAccesses, LinearOp.destination, LinearOp.dstRegister_relocate, LinearOp.dstRegisterCount_relocate]
  cases hdst : op.dstRegister with
  | none => rfl
  | some start =>
    simp only [Option.map_some, List.range'_eq_map_range, List.map_map]
    exact List.map_congr_left fun offset ho => (h.destination start hdst offset (List.mem_range.1 ho)).symm

/-- What the operations compute. It does not depend on the registers that they name. -/
structure Meaning (F V W : Type) where
  run : LinearOp F → W → List V → Option (Outcome V W)
  run_length : ∀ op w vs r, run op w vs = some r → r.written.length = op.destination.length
  run_relocate : ∀ place op, run (LinearOp.relocate place op) = run op

namespace Meaning

variable {V W : Type} (M : Meaning F V W)

def instructions : Instructions (LinearOp F) V (List V × W) where
  toAccesses := rangeAccesses F
  run op s vs := (M.run op s.2 vs).map fun r => (r.written, (s.1 ++ r.stored, r.world))
  run_length op s vs r hr := by
    obtain ⟨outcome, houtcome, rfl⟩ := Option.map_eq_some_iff.1 hr
    exact M.run_length op s.2 vs outcome houtcome

/-- The outputs that a program stores, in order, and the world that it leaves. -/
def execute (p : List (LinearOp F)) (world : W) : Option (List V × W) :=
  (M.instructions.execute p (fun _ => none, ([], world))).map (·.2)

/-- A program moved range by range, no write on a register still to be read, stores the same outputs. -/
theorem execute_relocate {p : List (LinearOp F)} (hranges : ∀ op ∈ p, KeepsRanges place op)
    (hapart : (rangeAccesses F).Apart place p) (world : W) :
    M.execute (p.map (LinearOp.relocate place)) world = M.execute p world := by
  refine M.instructions.execute_relocated (fun op hop => ?_) hapart (fun _ _ => rfl) _
  refine ⟨(hranges op hop).reads, (hranges op hop).writes, ?_⟩
  simp only [instructions, M.run_relocate]

end Meaning

end Rumoca.Solve
