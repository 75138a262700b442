import Rumoca.Solve.LinearOp
/-!
# Register flow

The proof that every register an operation reads was written before. The
checks of one operation are a list: a register it requires, or the error its
shape is rejected with. Validation runs the list against the defined
registers; collecting it gives the registers read. Only conditional regions
are validated inside an operation, so a load or a store of a fold body is
always rejected here.
-/

namespace Rumoca.Solve

inductive ScalarProgramRegisterError where
  | undefinedRegister (opIndex : Nat) (operation : String) (register : Reg)
  | emptyRegisterRange (opIndex : Nat) (operation : String)
  | registerRangeOverflow (opIndex : Nat) (operation : String) (start : Reg) (len : Nat)
  | invalidProjection (opIndex : Nat) (operation : String) (projection len : Nat)
  | invalidFunctionFold (opIndex : Nat) (reason : String)
  | invalidFunctionConditional (opIndex : Nat) (reason : String)
  | invalidPureCall (opIndex : Nat) (reason : String)
  | invalidTensorProjection (opIndex : Nat) (reason : String)
deriving DecidableEq, Repr

/-- One check of an operation's sources. -/
inductive SourceCheck where
  | require (register : Reg)
  | reject (error : ScalarProgramRegisterError)
deriving DecidableEq, Repr

/-- The read-only context of one operation's checks. -/
structure OpSources where
  operation : String
  opIndex : Nat
  conditionalCaptureCount : Option Nat
  maxLanes : Nat

namespace OpSources

variable (cx : OpSources)

def tensorError (reason : String) : List SourceCheck := [.reject (.invalidTensorProjection cx.opIndex reason)]

def foldError (reason : String) : List SourceCheck := [.reject (.invalidFunctionFold cx.opIndex reason)]

def conditionalError (reason : String) : List SourceCheck :=
  [.reject (.invalidFunctionConditional cx.opIndex reason)]

def pureCallError (reason : String) : List SourceCheck := [.reject (.invalidPureCall cx.opIndex reason)]

def emptyRange : List SourceCheck := [.reject (.emptyRegisterRange cx.opIndex cx.operation)]

def rangeOverflow (start : Reg) (len : Nat) : List SourceCheck :=
  [.reject (.registerRangeOverflow cx.opIndex cx.operation start len)]

def projection (projection len : Nat) : List SourceCheck :=
  if projection < len then [] else [.reject (.invalidProjection cx.opIndex cx.operation projection len)]

/-- `require_register_range`. -/
def requireRange (start : Reg) (len : Nat) : List SourceCheck :=
  if len = 0 then cx.emptyRange
  else if start + (len - 1) < u32Limit then (List.range len).map fun offset => .require (start + offset)
  else cx.rangeOverflow start len

/-- `require_strided_registers`. -/
def requireStridedRegisters (start : Reg) (count stride : Nat) : List SourceCheck :=
  if count = 0 then cx.emptyRange
  else if start + (count - 1) * stride < u32Limit then
    (List.range count).map fun term => .require (start + term * stride)
  else cx.rangeOverflow start count

/-- `require_strided_register_range`. -/
def outputRange (start : Reg) (count stride : Nat) : List SourceCheck :=
  if count = 0 then cx.emptyRange
  else if stride = 0 then cx.conditionalError "output range stride is zero"
  else if start + (count - 1) * stride < u32Limit then
    (List.range count).map fun ordinal => .require (start + ordinal * stride)
  else cx.rangeOverflow start count

/-- A product of extents that must fit a `usize`. -/
def checkedProduct (start : Nat) (extents : List Nat) : Option Nat :=
  extents.foldlM (fun count extent => checkedUsize (count * extent)) start

def conditionalCapture (index : Nat) : List SourceCheck :=
  match cx.conditionalCaptureCount with
  | none => cx.conditionalError "capture load escaped its conditional region"
  | some captureCount => cx.projection index captureCount

def conditionalCaptureRange (indexStart count : Nat) : List SourceCheck :=
  match cx.conditionalCaptureCount with
  | none => cx.conditionalError "capture range load escaped its conditional region"
  | some captureCount =>
    if count = 0 ∨ usizeLimit ≤ indexStart + count ∨ captureCount < indexStart + count then
      cx.conditionalError "capture range load is empty, overflows, or exceeds the capture ABI"
    else []

/-- One axis of `indexed_register`. -/
def indexedAxis (axis : Nat × TensorIndex) : List SourceCheck :=
  match axis.2 with
  | .constant coordinate =>
    if axis.1 ≤ coordinate then cx.tensorError "constant tensor coordinate is out of range" else []
  | .runtime register => [.require register]

def indexedRegister (base : Reg) (stride : Nat) (dimensions : List Nat) (indices : List TensorIndex) :
    List SourceCheck :=
  if dimensions = [] ∨ dimensions.length ≠ indices.length then
    cx.tensorError "tensor projection rank does not match its checked dimensions"
  else
    match if 0 ∈ dimensions then none else checkedProduct 1 dimensions with
    | none => cx.tensorError "tensor projection dimensions are empty or overflow"
    | some count =>
      if stride = 0 then cx.tensorError "tensor projection register stride is zero"
      else if u32Limit ≤ (count - 1) * stride then cx.tensorError "tensor projection register stride overflows"
      else if u32Limit ≤ base + (count - 1) * stride then
        cx.tensorError "tensor projection register range overflows"
      else ((List.range count).map fun offset => .require (base + offset * stride)) ++
        (dimensions.zip indices).flatMap cx.indexedAxis

/-- `typed_call_sources`. -/
def typedCallSources (inputStarts : List Reg) (inputs : List Nat) (outputScalarCount : Option Nat) (reason : String) :
    List SourceCheck :=
  if inputStarts.length ≠ inputs.length ∨ outputScalarCount = none ∨ outputScalarCount = some 0 then
    cx.pureCallError reason
  else (inputStarts.zip inputs).flatMap fun (start, count) => cx.requireRange start count

def lanesInRange (lanes : Nat) : Prop := lanes ≠ 0 ∧ lanes ≤ cx.maxLanes

instance (lanes : Nat) : Decidable (cx.lanesInRange lanes) := inferInstanceAs (Decidable (_ ∧ _))

def matrixMultiply (lhsStart rhsStart : Reg) (rows inner columns lanes : Nat) : List SourceCheck :=
  if rows = 0 ∨ inner = 0 ∨ columns = 0 ∨ ¬ cx.lanesInRange lanes then
    cx.tensorError "matrix multiply has an invalid shape or lane count"
  else
    match checkedProduct rows [inner, lanes], checkedProduct inner [columns, lanes] with
    | none, _ => cx.tensorError "matrix multiply lhs range overflows"
    | _, none => cx.tensorError "matrix multiply rhs range overflows"
    | some lhsCount, some rhsCount => cx.requireRange lhsStart lhsCount ++ cx.requireRange rhsStart rhsCount

/-- The registers of one operand of `tensor_binary`. -/
def stridedCount (count stride lanes : Nat) : Option Nat := do
  let last ← checkedUsize ((count - 1) * stride)
  let elements ← checkedUsize (last + 1)
  checkedUsize (elements * lanes)

def tensorBinary (op : BinaryOp) (lhsStart lhsStride rhsStart rhsStride count lanes : Nat) : List SourceCheck :=
  if count = 0 ∨ ¬ cx.lanesInRange lanes ∨ op ∉ [.add, .sub, .mul, .div] then
    cx.tensorError "tensor binary has an invalid operator, extent, or lane count"
  else
    match stridedCount count lhsStride lanes, stridedCount count rhsStride lanes with
    | none, _ => cx.tensorError "tensor binary lhs range overflows"
    | _, none => cx.tensorError "tensor binary rhs range overflows"
    | some lhsCount, some rhsCount => cx.requireRange lhsStart lhsCount ++ cx.requireRange rhsStart rhsCount

def tensorCross (lhsStart rhsStart : Reg) (lanes : Nat) : List SourceCheck :=
  if ¬ cx.lanesInRange lanes then cx.tensorError "tensor cross product has an invalid lane count"
  else
    match checkedUsize (3 * lanes) with
    | none => cx.tensorError "tensor cross product input range overflows"
    | some count => cx.requireRange lhsStart count ++ cx.requireRange rhsStart count

def tensorTranspose (srcStart : Reg) (rows columns elementWidth lanes : Nat) : List SourceCheck :=
  match checkedProduct rows [columns, elementWidth, lanes] with
  | none => cx.tensorError "tensor transpose range overflows"
  | some count =>
    if rows = 0 ∨ columns = 0 ∨ elementWidth = 0 ∨ ¬ cx.lanesInRange lanes then
      cx.tensorError "tensor transpose has an invalid shape, element width, or lane count"
    else cx.requireRange srcStart count

/-- The sources of `tensor_concatenate` from `axisExtent` on. -/
def concatenateSources (dimensions : List Nat) (axis lanes : Nat) :
    List TensorConcatenateSource → (axisExtent : Nat) → List SourceCheck
  | [], axisExtent =>
    if some axisExtent ≠ dimensions[axis]? then
      cx.tensorError "tensor concatenate sources do not cover the result axis"
    else []
  | source :: rest, axisExtent =>
    if source.dimensions.length ≠ dimensions.length ∨
        ((source.dimensions.zip dimensions).zipIdx.any fun ((extent, result), dimension) =>
          dimension != axis && extent != result) then
      cx.tensorError "tensor concatenate source shape is incompatible"
    else
      match checkedU32 (axisExtent + (source.dimensions[axis]?).getD 0) with
      | none => cx.tensorError "tensor concatenate axis extent overflows"
      | some extent =>
        match checkedProduct lanes source.dimensions with
        | none => cx.tensorError "tensor concatenate source extent overflows"
        | some count =>
          cx.requireRange source.start count ++ concatenateSources dimensions axis lanes rest extent

def tensorConcatenate (sources : List TensorConcatenateSource) (dimensions : List Nat) (axis lanes : Nat) :
    List SourceCheck :=
  if sources = [] ∨ dimensions = [] ∨ dimensions.length ≤ axis ∨ ¬ cx.lanesInRange lanes then
    cx.tensorError "tensor concatenate has an invalid shape, axis, or lane count"
  else cx.concatenateSources dimensions axis lanes sources 0

/-- The axes of `tensor_update` from `valueCount` on, then its value range. -/
def updateAxes (valueStart : Reg) : List (Nat × TensorUpdateSubscript) → (valueCount : Nat) → List SourceCheck
  | [], valueCount => cx.requireRange valueStart valueCount
  | (extent, .whole) :: rest, valueCount =>
    match checkedUsize (valueCount * extent) with
    | none => cx.tensorError "tensor update value extent overflows"
    | some count => updateAxes valueStart rest count
  | (extent, .index (.constant coordinate)) :: rest, valueCount =>
    if extent ≤ coordinate then cx.tensorError "tensor update constant index is out of range"
    else updateAxes valueStart rest valueCount
  | (_, .index (.runtime register)) :: rest, valueCount => .require register :: updateAxes valueStart rest valueCount
  | (_, .slice start dimensions) :: rest, valueCount =>
    if dimensions = [] ∨ 0 ∈ dimensions then cx.tensorError "tensor update slice has an invalid shape"
    else
      match checkedProduct 1 dimensions with
      | none => cx.tensorError "tensor update slice extent overflows"
      | some count =>
        cx.requireRange start count ++
          match checkedUsize (valueCount * count) with
          | none => cx.tensorError "tensor update sliced value extent overflows"
          | some total => updateAxes valueStart rest total

def tensorUpdate (baseStart valueStart : Reg) (dimensions : List Nat) (subscripts : List TensorUpdateSubscript)
    (lanes : Nat) : List SourceCheck :=
  if dimensions = [] ∨ dimensions.length ≠ subscripts.length ∨ ¬ cx.lanesInRange lanes ∨ 0 ∈ dimensions then
    cx.tensorError "tensor update has an invalid shape, projection, or lane count"
  else
    match checkedProduct lanes dimensions with
    | none => cx.tensorError "tensor update base extent overflows"
    | some baseCount =>
      cx.requireRange baseStart baseCount ++ cx.updateAxes valueStart (dimensions.zip subscripts) lanes

def functionFoldSources {F : Type} (initialStart captureStart : Reg) (activation : Option Reg)
    (program : FunctionFoldProgram F) : List SourceCheck :=
  if program.carriedCount = 0 then cx.foldError "carried tuple is empty"
  else cx.requireRange initialStart program.carriedCount ++
    (if program.captureCount = 0 then [] else cx.requireRange captureStart program.captureCount) ++
    activation.toList.map .require

def leafSources {F : Type} : LinearOp F → List SourceCheck
  | .const .. | .loadTime .. | .loadY .. | .loadP .. | .loadSeed .. => []
  | .loadFoldCarried .. => cx.foldError "carried load escaped its update body"
  | .loadFoldIndex .. => cx.foldError "binder load escaped its update body"
  | .loadFoldCapture .. => cx.foldError "capture load escaped its update body"
  | .loadFunctionConditionalCapture _ index => cx.conditionalCapture index
  | .loadFunctionConditionalCaptureRange _ indexStart count => cx.conditionalCaptureRange indexStart count
  | .move _ src | .unary _ _ src | .loadIndexedP _ _ _ src | .loadIndexedSeed _ _ _ src | .storeOutput src =>
    [.require src]
  | .storeOutputRange start count stride => cx.outputRange start count stride
  | .loadIndexedRegister _ base stride dimensions indices => cx.indexedRegister base stride dimensions indices
  | .loadIndexedFoldCarried .. => cx.foldError "indexed carried load escaped its update body"
  | .loadIndexedFoldCapture .. => cx.foldError "indexed capture load escaped its update body"
  | .storeOutputFoldTensorUpdate .. => cx.foldError "aggregate output escaped its function-fold update body"
  | .storeOutputFunctionFold .. => cx.foldError "nested aggregate fold escaped its parent update body"
  | .functionConditional .. => []
  | .pureCall _ inputStarts site => cx.typedCallSources inputStarts site.inputs site.outputScalarCount
      "typed call interface has invalid input or output width"
  | .pureCallObservation _ inputStarts site => cx.typedCallSources inputStarts site.valueSite.inputs
      (some site.outputScalarCount) "assertion observation interface has invalid input or output width"
  | .pureCallDirectional _ inputStarts site => cx.typedCallSources inputStarts site.inputs site.outputScalarCount
      "typed directional call interface has invalid input or output width"
  | .binary _ _ lhs rhs | .compare _ _ lhs rhs => [.require lhs, .require rhs]
  | .select _ cond ifTrue ifFalse => [.require cond, .require ifTrue, .require ifFalse]
  | .linearSolveComponent _ matrixStart rhsStart n component =>
    cx.projection component n ++
      match checkedUsize (n * n) with
      | none => cx.rangeOverflow matrixStart n
      | some matrixLen => cx.requireRange matrixStart matrixLen ++ cx.requireRange rhsStart n
  | .dotProduct _ lhsStart rhsStart count lhsStride rhsStride =>
    cx.requireStridedRegisters lhsStart count lhsStride ++ cx.requireStridedRegisters rhsStart count rhsStride
  | .matrixMultiply _ lhsStart rhsStart rows inner columns lanes =>
    cx.matrixMultiply lhsStart rhsStart rows inner columns lanes
  | .tensorBinary _ op lhsStart rhsStart count lhsStride rhsStride lanes =>
    cx.tensorBinary op lhsStart lhsStride rhsStart rhsStride count lanes
  | .tensorCross _ lhsStart rhsStart lanes => cx.tensorCross lhsStart rhsStart lanes
  | .tensorTranspose _ srcStart rows columns elementWidth lanes =>
    cx.tensorTranspose srcStart rows columns elementWidth lanes
  | .tensorConcatenate _ sources dimensions axis lanes => cx.tensorConcatenate sources dimensions axis lanes
  | .tensorUpdate _ baseStart valueStart dimensions subscripts lanes =>
    cx.tensorUpdate baseStart valueStart dimensions subscripts lanes
  | .tensorFill _ valueStart count lanes =>
    if count = 0 ∨ ¬ cx.lanesInRange lanes then
      cx.tensorError "tensor fill has an invalid extent or lane count"
    else cx.requireRange valueStart lanes
  | .tensorIdentity _ size lanes =>
    if size = 0 ∨ ¬ cx.lanesInRange lanes ∨ usizeLimit ≤ size * size then
      cx.tensorError "tensor identity has an invalid extent or lane count"
    else []
  | .tensorLoad _ _ _ count seedStart lanes =>
    if count = 0 ∨ ¬ cx.lanesInRange lanes ∨ (lanes = 1 ∧ seedStart.isSome) then
      cx.tensorError "tensor load has an invalid extent, seed, or lane count"
    else []
  | .tableBounds _ tableId _ => [.require tableId]
  | .tableLookup _ tableId column input | .tableLookupSlope _ tableId column input =>
    [.require tableId, .require column, .require input]
  | .tableNextEvent _ tableId time => [.require tableId, .require time]
  | .randomInitialState _ _ localSeed globalSeed stateLen stateIndex =>
    cx.projection stateIndex stateLen ++ [.require localSeed, .require globalSeed]
  | .randomResult _ _ stateStart stateLen => cx.requireRange stateStart stateLen
  | .randomState _ _ stateStart stateLen stateIndex =>
    cx.projection stateIndex stateLen ++ cx.requireRange stateStart stateLen
  | .impureRandomInit _ seed => [.require seed]
  | .impureRandom _ id _ => [.require id]
  | .impureRandomInteger _ id imin imax _ => [.require id, .require imin, .require imax]
  | .functionFold _ initialStart captureStart program =>
    cx.functionFoldSources initialStart captureStart none program
  | .guardedFunctionFold _ initialStart captureStart activation program =>
    cx.functionFoldSources initialStart captureStart (some activation) program

end OpSources

/-! ## Running the checks -/

def firstFailure (defined : Reg → Bool) (operation : String) (opIndex : Nat) :
    List SourceCheck → Option ScalarProgramRegisterError
  | [] => none
  | .reject error :: _ => some error
  | .require register :: rest =>
    if defined register then firstFailure defined operation opIndex rest
    else some (.undefinedRegister opIndex operation register)

def collected : List SourceCheck → Option (List Reg)
  | [] => some []
  | .reject _ :: _ => none
  | .require register :: rest => (collected rest).map (register :: ·)

/-- `insert`: the registers from `start` on are defined. -/
def defineRange (defined : Reg → Bool) (start : Reg) (len : Nat) (register : Reg) : Bool :=
  defined register || (start ≤ register && register < start + len)

/-- The outputs of one operation in `fold_output_count`. -/
def outputArity {F : Type} : LinearOp F → Nat
  | .storeOutput _ => 1
  | .storeOutputFoldTensorUpdate _ _ dimensions _ _ _ lanes => dimensions.foldl saturatingMul lanes
  | .storeOutputFunctionFold _ _ _ _ count .. => count
  | .storeOutputRange _ count _ => count
  | _ => 0

def foldOutputCount {F : Type} (ops : List (LinearOp F)) : Except ScalarProgramRegisterError Nat :=
  ops.foldlM (fun count op =>
    match checkedUsize (count + outputArity op) with
    | none => throw (.invalidFunctionFold 0 "update output count overflows")
    | some count => pure count) 0

def requireConditionalOutputCount {F : Type} (ops : List (LinearOp F)) (expected : Nat) (reason : String) :
    Except ScalarProgramRegisterError Unit := do
  let actual ← foldOutputCount ops
  if actual ≠ expected then throw (.invalidFunctionConditional 0 reason) else pure ()

def maxRegister (last : Option Reg) (register : Reg) : Option Reg := some (last.elim register (max register))

mutual

/-- The checks of one operation's sources; a conditional also validates its regions. -/
def opSources {F : Type} (maxLanes : Nat) (captures : Option Nat) (opIndex : Nat) : LinearOp F → List SourceCheck
  | .functionConditional _ captureStart program =>
    let cx : OpSources := ⟨"FunctionConditional", opIndex, captures, maxLanes⟩
    match validateConditional maxLanes program with
    | some (.invalidFunctionConditional _ reason) => cx.conditionalError reason
    | some error => [.reject error]
    | none => if program.captureCount = 0 then [] else cx.requireRange captureStart program.captureCount
  | op => (OpSources.mk op.kindName opIndex captures maxLanes).leafSources op

/-- The largest register of `ops`, when their flow is valid. -/
def deriveFrom {F : Type} (maxLanes : Nat) (captures : Option Nat) :
    List (LinearOp F) → (opIndex : Nat) → (initialized : Reg → Bool) → Option Reg →
      Except ScalarProgramRegisterError (Option Reg)
  | [], _, _, last => pure last
  | op :: rest, opIndex, initialized, last =>
    let checks := opSources maxLanes captures opIndex op
    match firstFailure initialized op.kindName opIndex checks with
    | some error => throw error
    | none =>
      let last := ((collected checks).getD []).foldl maxRegister last
      match op.dstRegister with
      | none => deriveFrom maxLanes captures rest (opIndex + 1) initialized last
      | some dst =>
        if op.dstRegisterCount = 0 then throw (.emptyRegisterRange opIndex op.kindName)
        else if dst + (op.dstRegisterCount - 1) < u32Limit then
          deriveFrom maxLanes captures rest (opIndex + 1) (defineRange initialized dst op.dstRegisterCount)
            (maxRegister last (dst + (op.dstRegisterCount - 1)))
        else throw (.registerRangeOverflow opIndex op.kindName dst op.dstRegisterCount)

/-- `validate_with_cache`: the error of a conditional program. -/
def validateConditional {F : Type} (maxLanes : Nat) :
    FunctionConditionalProgram F → Option ScalarProgramRegisterError
  | ⟨_, captureCount, targetWidths, resultCount, arms, fallbackRegisterCount, fallback⟩ =>
    if targetWidths = [] ∨ 0 ∈ targetWidths then
      some (.invalidFunctionConditional 0 "target tuple is empty or contains an empty value")
    else
      match targetWidths.foldlM (fun count width => checkedUsize (count + width)) 0 with
      | none => some (.invalidFunctionConditional 0 "target tuple width overflows")
      | some width =>
        if width ≠ resultCount then
          some (.invalidFunctionConditional 0 "stored result width does not match the target tuple")
        else if arms.isEmpty then some (.invalidFunctionConditional 0 "ordered condition list is empty")
        else
          match validateArms maxLanes captureCount resultCount arms with
          | some error => some error
          | none =>
            match deriveFrom maxLanes (some captureCount) fallback 0 (fun _ => false) none with
            | .error error => some error
            | .ok last =>
              match requireConditionalOutputCount fallback resultCount
                  "fallback region does not completely define the result tuple" with
              | .error error => some error
              | .ok () =>
                if last.elim 0 (· + 1) ≠ fallbackRegisterCount then
                  some (.invalidFunctionConditional 0 "stored fallback register capacity does not match its region")
                else none

def validateArms {F : Type} (maxLanes captureCount resultCount : Nat) :
    List (FunctionConditionalArmProgram F) → Option ScalarProgramRegisterError
  | [] => none
  | ⟨conditionRegisterCount, resultRegisterCount, condition, result⟩ :: rest =>
    match deriveFrom maxLanes (some captureCount) condition 0 (fun _ => false) none with
    | .error error => some error
    | .ok conditionLast =>
      match requireConditionalOutputCount condition 1 "condition region must produce exactly one value" with
      | .error error => some error
      | .ok () =>
        match deriveFrom maxLanes (some captureCount) result 0 (fun _ => false) none with
        | .error error => some error
        | .ok resultLast =>
          match requireConditionalOutputCount result resultCount
              "branch region does not completely define the result tuple" with
          | .error error => some error
          | .ok () =>
            if conditionLast.elim 0 (· + 1) ≠ conditionRegisterCount ∨
                resultLast.elim 0 (· + 1) ≠ resultRegisterCount then
              some (.invalidFunctionConditional 0 "stored branch register capacity does not match its region")
            else validateArms maxLanes captureCount resultCount rest

end

/-- `ScalarProgramRegisterFlow::derive`: the register count of a program whose flow is valid. -/
def deriveRegisterFlow {F : Type} (program : List (LinearOp F)) : Except ScalarProgramRegisterError Nat :=
  (deriveFrom 2 none program 0 (fun _ => false) none).map fun last => last.elim 0 (· + 1)

/-- `op_read_registers`: every register `op` reads, ascending. -/
def readRegisters {F : Type} (op : LinearOp F) : Option (List Reg) :=
  (collected (opSources 2 none 0 op)).map sortDedup

end Rumoca.Solve
