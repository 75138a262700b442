import Rumoca.Machine
/-!
# Linear operations

The register operations of a lowered program, with the bodies that folds and
conditionals nest. A register is a `Nat` below `u32Limit`; a literal has the
type `F`, which stands for `f64`. A call site keeps of its interface what
register flow reads: the owner, the width of each input and the kind and
width of each output.
-/

namespace Rumoca.Solve

/-- A register of a program, a `u32` of the source. -/
abbrev Reg := Nat

/-- The register `offset` past `start`, as `start + offset as Reg`. -/
def Reg.offset (start : Reg) (offset : Nat) : Reg := (start + offset) % u32Limit

theorem Reg.offset_eq {start offset : Nat} (h : start + offset < u32Limit) : Reg.offset start offset = start + offset :=
  Nat.mod_eq_of_lt h

inductive UnaryOp where
  | neg | not | abs | sign | sqrt | floor | ceil | trunc | sin | cos | tan | asin | acos | atan | sinh | cosh | tanh
  | exp | log | log10
deriving DecidableEq, Repr

inductive BinaryOp where
  | add | sub | mul | div | pow | and | or | atan2 | min | max
deriving DecidableEq, Repr

inductive CompareOp where
  | lt | le | gt | ge | eq | ne
deriving DecidableEq, Repr

inductive RandomGenerator where
  | xorshift64Star | xorshift128Plus | xorshift1024Star
deriving DecidableEq, Repr

inductive TensorInputKind where
  | y | p
deriving DecidableEq, Repr

/-- One axis of a runtime projection: a zero-based constant, or a register of one-based indices. -/
inductive TensorIndex where
  | constant (coordinate : Nat)
  | runtime (register : Reg)
deriving DecidableEq, Repr

inductive TensorUpdateSubscript where
  | whole
  | index (index : TensorIndex)
  | slice (start : Reg) (dimensions : List Nat)
deriving DecidableEq, Repr

structure TensorConcatenateSource where
  start : Reg
  dimensions : List Nat
deriving DecidableEq, Repr

structure FoldTensorUpdate where
  subscripts : List TensorUpdateSubscript
  condition : Option Reg
  valueStart : Reg
  valueStride : Nat
deriving DecidableEq, Repr

inductive FoldTensorNode where
  | update (base update : Nat)
  | select (condition : Reg) (ifTrue ifFalse : Nat)
deriving DecidableEq, Repr

inductive FoldInitialSource where
  | registers (start : Reg) (count : Nat)
  | parentCarried (base count : Nat)
deriving DecidableEq, Repr

/-- One binder of a fold's domain. -/
structure IndexBinder where
  lower : Int
  upper : Int
  step : Int
deriving DecidableEq, Repr

inductive PureCallOutputKind where
  | result | assertionPredicate | assertionMessageValue
deriving DecidableEq, Repr

/-- The interface of an issued call: its owner, the width of each input, the kind and width of each output. -/
structure PureCallSite where
  owner : Nat
  inputs : List Nat
  outputs : List (PureCallOutputKind × Nat)
deriving DecidableEq, Repr

/-- The assertion observations of a call: its site and the outputs that are predicates. -/
structure AssertionObservationSite where
  valueSite : PureCallSite
  predicates : List Nat
deriving DecidableEq, Repr

mutual

inductive LinearOp (F : Type) where
  | const (dst : Reg) (value : F)
  | loadTime (dst : Reg)
  | loadY (dst : Reg) (index : Nat)
  | loadP (dst : Reg) (index : Nat)
  | loadIndexedP (dst : Reg) (base count : Nat) (index : Reg)
  | loadIndexedRegister (dst base : Reg) (stride : Nat) (dimensions : List Nat) (indices : List TensorIndex)
  | loadIndexedFoldCarried (dst : Reg) (base stride : Nat) (dimensions : List Nat) (indices : List TensorIndex)
  | loadIndexedFoldCapture (dst : Reg) (base stride : Nat) (dimensions : List Nat) (indices : List TensorIndex)
  | loadSeed (dst : Reg) (index : Nat)
  | loadFoldCarried (dst : Reg) (index : Nat)
  | loadFoldIndex (dst : Reg) (dimension : Nat)
  | loadFoldCapture (dst : Reg) (index : Nat)
  | loadFunctionConditionalCapture (dst : Reg) (index : Nat)
  | loadFunctionConditionalCaptureRange (dstStart : Reg) (indexStart count : Nat)
  | loadIndexedSeed (dst : Reg) (base count : Nat) (index : Reg)
  | move (dst src : Reg)
  | linearSolveComponent (dst matrixStart rhsStart : Reg) (n component : Nat)
  | dotProduct (dst lhsStart rhsStart : Reg) (count lhsStride rhsStride : Nat)
  | matrixMultiply (dstStart lhsStart rhsStart : Reg) (rows inner columns lanes : Nat)
  | tensorBinary (dstStart : Reg) (op : BinaryOp) (lhsStart rhsStart : Reg) (count lhsStride rhsStride lanes : Nat)
  | tensorCross (dstStart lhsStart rhsStart : Reg) (lanes : Nat)
  | tensorTranspose (dstStart srcStart : Reg) (rows columns elementWidth lanes : Nat)
  | tensorConcatenate (dstStart : Reg) (sources : List TensorConcatenateSource) (dimensions : List Nat)
      (axis lanes : Nat)
  | tensorUpdate (dstStart baseStart valueStart : Reg) (dimensions : List Nat)
      (subscripts : List TensorUpdateSubscript) (lanes : Nat)
  | tensorFill (dstStart valueStart : Reg) (count lanes : Nat)
  | tensorIdentity (dstStart : Reg) (size lanes : Nat)
  | tensorLoad (dstStart : Reg) (input : TensorInputKind) (inputStart count : Nat) (seedStart : Option Nat)
      (lanes : Nat)
  | tableBounds (dst tableId : Reg) (max : Bool)
  | tableLookup (dst tableId column input : Reg)
  | tableLookupSlope (dst tableId column input : Reg)
  | tableNextEvent (dst tableId time : Reg)
  | randomInitialState (dst : Reg) (generator : RandomGenerator) (localSeed globalSeed : Reg)
      (stateLen stateIndex : Nat)
  | randomResult (dst : Reg) (generator : RandomGenerator) (stateStart : Reg) (stateLen : Nat)
  | randomState (dst : Reg) (generator : RandomGenerator) (stateStart : Reg) (stateLen stateIndex : Nat)
  | impureRandomInit (dst seed : Reg)
  | impureRandom (dst id : Reg) (callSite : Nat)
  | impureRandomInteger (dst id imin imax : Reg) (callSite : Nat)
  | unary (dst : Reg) (op : UnaryOp) (arg : Reg)
  | binary (dst : Reg) (op : BinaryOp) (lhs rhs : Reg)
  | compare (dst : Reg) (op : CompareOp) (lhs rhs : Reg)
  | select (dst cond ifTrue ifFalse : Reg)
  | functionFold (dstStart initialStart captureStart : Reg) (program : FunctionFoldProgram F)
  | guardedFunctionFold (dstStart initialStart captureStart activation : Reg) (program : FunctionFoldProgram F)
  | functionConditional (dstStart captureStart : Reg) (program : FunctionConditionalProgram F)
  | pureCall (dstStart : Reg) (inputStarts : List Reg) (site : PureCallSite)
  | pureCallObservation (dstStart : Reg) (inputStarts : List Reg) (site : AssertionObservationSite)
  | pureCallDirectional (dstStart : Reg) (inputStarts : List Reg) (site : PureCallSite)
  | storeOutputFoldTensorUpdate (sourceBase sourceStride : Nat) (dimensions : List Nat)
      (updates : List FoldTensorUpdate) (nodes : List FoldTensorNode) (result lanes : Nat)
  | storeOutputFunctionFold (initial : List FoldInitialSource) (captureStart : Reg)
      (program : FunctionFoldProgram F) (resultBase count : Nat) (condition : Option Reg) (nestedWhenTrue : Bool)
  | storeOutputRange (start : Reg) (count stride : Nat)
  | storeOutput (src : Reg)

/-- The body of a fold: one update of the carried tuple for each point of the domain. -/
structure FunctionFoldProgram (F : Type) where
  domain : List IndexBinder
  carriedCount : Nat
  captureCount : Nat
  registerCount : Nat
  update : List (LinearOp F)
  continuation : Option (FoldContinuation F)

/-- The predicate of a bounded `while` fold. -/
structure FoldContinuation (F : Type) where
  registerCount : Nat
  ops : List (LinearOp F)

structure FunctionConditionalProgram (F : Type) where
  owner : Option Nat
  captureCount : Nat
  targetWidths : List Nat
  resultCount : Nat
  arms : List (FunctionConditionalArmProgram F)
  fallbackRegisterCount : Nat
  fallback : List (LinearOp F)

structure FunctionConditionalArmProgram (F : Type) where
  conditionRegisterCount : Nat
  resultRegisterCount : Nat
  condition : List (LinearOp F)
  result : List (LinearOp F)

end

/-- The largest `usize`. -/
def usizeMax : Nat := usizeLimit - 1

/-- `saturating_mul` on `usize`. -/
def saturatingMul (a b : Nat) : Nat := min (a * b) usizeMax

/-- `checked_add` and `try_fold` over the widths of the outputs of a call. -/
def PureCallSite.outputScalarCount (site : PureCallSite) : Option Nat :=
  site.outputs.foldlM (fun count output => checkedUsize (count + output.2)) 0

def AssertionObservationSite.outputScalarCount (site : AssertionObservationSite) : Nat := site.predicates.length

namespace LinearOp

variable {F : Type}

def kindName : LinearOp F → String
  | .const .. => "Const"
  | .loadTime .. => "LoadTime"
  | .loadY .. => "LoadY"
  | .loadP .. => "LoadP"
  | .loadIndexedP .. => "LoadIndexedP"
  | .loadIndexedRegister .. => "LoadIndexedRegister"
  | .loadIndexedFoldCarried .. => "LoadIndexedFoldCarried"
  | .loadIndexedFoldCapture .. => "LoadIndexedFoldCapture"
  | .loadSeed .. => "LoadSeed"
  | .loadIndexedSeed .. => "LoadIndexedSeed"
  | .loadFoldCarried .. => "LoadFoldCarried"
  | .loadFoldIndex .. => "LoadFoldIndex"
  | .loadFoldCapture .. => "LoadFoldCapture"
  | .loadFunctionConditionalCapture .. => "LoadFunctionConditionalCapture"
  | .loadFunctionConditionalCaptureRange .. => "LoadFunctionConditionalCaptureRange"
  | .move .. => "Move"
  | .linearSolveComponent .. => "LinearSolveComponent"
  | .dotProduct .. => "DotProduct"
  | .matrixMultiply .. => "MatrixMultiply"
  | .tensorBinary .. => "TensorBinary"
  | .tensorCross .. => "TensorCross"
  | .tensorTranspose .. => "TensorTranspose"
  | .tensorConcatenate .. => "TensorConcatenate"
  | .tensorUpdate .. => "TensorUpdate"
  | .tensorFill .. => "TensorFill"
  | .tensorIdentity .. => "TensorIdentity"
  | .tensorLoad .. => "TensorLoad"
  | .tableBounds .. => "TableBounds"
  | .tableLookup .. => "TableLookup"
  | .tableLookupSlope .. => "TableLookupSlope"
  | .tableNextEvent .. => "TableNextEvent"
  | .randomInitialState .. => "RandomInitialState"
  | .randomResult .. => "RandomResult"
  | .randomState .. => "RandomState"
  | .impureRandomInit .. => "ImpureRandomInit"
  | .impureRandom .. => "ImpureRandom"
  | .impureRandomInteger .. => "ImpureRandomInteger"
  | .unary .. => "Unary"
  | .binary .. => "Binary"
  | .compare .. => "Compare"
  | .select .. => "Select"
  | .functionFold .. => "FunctionFold"
  | .guardedFunctionFold .. => "GuardedFunctionFold"
  | .functionConditional .. => "FunctionConditional"
  | .pureCall .. => "PureCall"
  | .pureCallObservation .. => "PureCallObservation"
  | .pureCallDirectional .. => "PureCallDirectional"
  | .storeOutputFoldTensorUpdate .. => "StoreOutputFoldTensorUpdate"
  | .storeOutputFunctionFold .. => "StoreOutputFunctionFold"
  | .storeOutputRange .. => "StoreOutputRange"
  | .storeOutput .. => "StoreOutput"

def dstRegister : LinearOp F → Option Reg
  | .const dst _ | .loadTime dst | .loadY dst _ | .loadP dst _ | .loadIndexedP dst .. | .loadIndexedRegister dst ..
  | .loadIndexedFoldCarried dst .. | .loadIndexedFoldCapture dst .. | .loadSeed dst _ | .loadIndexedSeed dst ..
  | .loadFoldCarried dst _ | .loadFoldIndex dst _ | .loadFoldCapture dst _ | .loadFunctionConditionalCapture dst _
  | .move dst _ | .linearSolveComponent dst .. | .dotProduct dst .. | .tableBounds dst .. | .tableLookup dst ..
  | .tableLookupSlope dst .. | .tableNextEvent dst .. | .randomInitialState dst .. | .randomResult dst ..
  | .randomState dst .. | .impureRandomInit dst _ | .impureRandom dst .. | .impureRandomInteger dst ..
  | .unary dst .. | .binary dst .. | .compare dst .. | .select dst .. => some dst
  | .loadFunctionConditionalCaptureRange dstStart .. | .functionFold dstStart .. | .guardedFunctionFold dstStart ..
  | .functionConditional dstStart .. | .pureCall dstStart .. | .pureCallObservation dstStart ..
  | .pureCallDirectional dstStart .. | .matrixMultiply dstStart .. | .tensorBinary dstStart ..
  | .tensorCross dstStart .. | .tensorTranspose dstStart .. | .tensorConcatenate dstStart ..
  | .tensorUpdate dstStart .. | .tensorFill dstStart .. | .tensorIdentity dstStart .. | .tensorLoad dstStart .. =>
    some dstStart
  | .storeOutputFoldTensorUpdate .. | .storeOutputFunctionFold .. | .storeOutputRange .. | .storeOutput .. => none

/-- The number of registers written from `dstRegister` on. -/
def dstRegisterCount : LinearOp F → Nat
  | .loadFunctionConditionalCaptureRange _ _ count => count
  | .functionFold _ _ _ program | .guardedFunctionFold _ _ _ _ program => program.carriedCount
  | .functionConditional _ _ program => program.resultCount
  | .pureCall _ _ site => site.outputScalarCount.getD usizeMax
  | .pureCallObservation _ _ site => site.outputScalarCount
  | .pureCallDirectional _ _ site => site.outputScalarCount.getD usizeMax
  | .matrixMultiply _ _ _ rows _ columns lanes => saturatingMul (saturatingMul rows columns) lanes
  | .tensorTranspose _ _ rows columns elementWidth lanes =>
    saturatingMul (saturatingMul (saturatingMul rows columns) elementWidth) lanes
  | .tensorBinary _ _ _ _ count _ _ lanes | .tensorFill _ _ count lanes | .tensorLoad _ _ _ count _ lanes =>
    saturatingMul count lanes
  | .tensorCross _ _ _ lanes => saturatingMul 3 lanes
  | .tensorConcatenate _ _ dimensions _ lanes | .tensorUpdate _ _ _ dimensions _ lanes =>
    dimensions.foldl saturatingMul lanes
  | .tensorIdentity _ size lanes => saturatingMul (saturatingMul size size) lanes
  | .storeOutputFoldTensorUpdate .. | .storeOutputFunctionFold .. | .storeOutputRange .. | .storeOutput .. => 0
  | _ => 1

def written (op : LinearOp F) : List Reg :=
  match op.dstRegister with
  | some start => (List.range op.dstRegisterCount).map start.offset
  | none => []

end LinearOp

end Rumoca.Solve
