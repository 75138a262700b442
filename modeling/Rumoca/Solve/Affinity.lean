import Rumoca.Solve.LinearOp
import Rumoca.Lib.Entries
import Rumoca.Lib.SortedMap
/-!
# Degree bounds of a projection's outputs

How the values of a scalar program depend on the unknowns a projection solves
for: not at all, by an affine function, or in any way. A register range keeps
one bound, so a map from the first register of each range to its bound stands
for all registers; a strided operand is read over its whole hull. Only the
outputs a block selects are read, in the order of their offsets. The degree
bounds of an issued call come from the interactions of its inputs.
-/

namespace Rumoca.Solve.Affinity

/-! ## Degrees -/

inductive Degree where
  | independent | affine | nonlinear
deriving DecidableEq, Repr

namespace Degree

/-- The derived `max`. -/
def max : Degree → Degree → Degree
  | independent, rhs => rhs
  | lhs, independent => lhs
  | affine, affine => affine
  | _, _ => nonlinear

def product : Degree → Degree → Degree
  | independent, rhs => rhs
  | lhs, independent => lhs
  | _, _ => nonlinear

def binary (self : Degree) (operator : BinaryOp) (rhs : Degree) : Degree :=
  match operator with
  | .add | .sub => self.max rhs
  | .mul => self.product rhs
  | operator =>
    if operator = .div ∧ rhs = independent then self
    else if self = independent ∧ rhs = independent then independent
    else nonlinear

end Degree

/-! ## Registers -/

abbrev Registers := List (Nat × Degree)

namespace Registers

def atRegister (registers : Registers) (register : Nat) : Degree :=
  match Lib.lastUpTo register registers with
  | some entry => entry.2
  | none => .nonlinear

def read (registers : Registers) (start : Nat) (count : Nat) : Option Degree :=
  if count = 0 then some .independent
  else do
    let stop ← checkedU32 (start + (← checkedU32 count))
    pure ((registers.filter fun entry => start ≤ entry.1 ∧ entry.1 < stop).foldl
      (fun degree entry => degree.max entry.2) (registers.atRegister start))

def readStrided (registers : Registers) (start : Nat) (count stride : Nat) : Option Degree :=
  if count = 0 then some .independent
  else do
    let hull ← checkedUsize ((← checkedUsize ((count - 1) * stride)) + 1)
    registers.read start hull

def write (registers : Registers) (start : Nat) (count : Nat) (degree : Degree) : Option Registers :=
  if count = 0 then some registers
  else do
    let stop ← checkedU32 (start + (← checkedU32 count))
    let before := if start = 0 then .nonlinear else registers.atRegister (start - 1)
    let after := registers.atRegister stop
    let kept := registers.filter fun entry => ¬ (start ≤ entry.1 ∧ entry.1 < stop)
    let kept := if before ≠ degree then Lib.insertKey start degree kept else kept
    pure (if degree = after then Lib.removeKey stop kept else Lib.insertKey stop after kept)

end Registers

/-! ## Calls -/

/-- The inputs an output of a call reads, and the pairs of them that interact. -/
structure InputInteractions where
  inputs : List Nat
  nonlinear : List (Nat × Nat)
deriving DecidableEq, Repr

namespace InputInteractions

/-- The first pair of dependent inputs makes the output nonlinear. -/
def interact (inputs : List Degree) (degree : Degree) : List (Nat × Nat) → Option Degree
  | [] => some degree
  | (lhs, rhs) :: rest => do
    if (← inputs[lhs]?) = .independent then interact inputs degree rest
    else if (← inputs[rhs]?) = .independent then interact inputs degree rest
    else pure .nonlinear

def degree (interactions : InputInteractions) (inputs : List Degree) : Option Degree := do
  let degree ← interactions.inputs.foldlM (fun degree input => (inputs[input]?).map degree.max) .independent
  interact inputs degree interactions.nonlinear

end InputInteractions

abbrev SiteAffinity := PureCallSite → Option (List InputInteractions)

def SiteAffinity.outputDegrees (affinity : SiteAffinity) (site : PureCallSite) (inputs : List Degree) :
    Option (List Degree) :=
  if inputs.length ≠ site.inputs.length then none
  else do (← affinity site).mapM (·.degree inputs)

def callInputs (registers : Registers) (starts : List Nat) (types : List Nat) : Option (List Degree) :=
  if starts.length ≠ types.length then none
  else (starts.zip types).mapM fun (start, scalarCount) => registers.read start scalarCount

def storeCall (registers : Registers) (start : Nat) (degrees : List Degree)
    (outputs : List (PureCallOutputKind × Nat)) : Option Registers :=
  if degrees.length ≠ outputs.length then none
  else do
    let stored ← (degrees.zip outputs).foldlM (fun (registers, start) (degree, output) => do
      let registers ← registers.write start output.2 degree
      pure (registers, ← checkedU32 (start + output.2))) (registers, start)
    pure stored.1

/-! ## Operations -/

def extent (dimensions : List Nat) : Option Nat :=
  dimensions.foldlM (fun size extent => checkedUsize (size * extent)) 1

/-- The number of values a patch takes, and the bound of the registers that select it. -/
def patch (registers : Registers) (dimensions : List Nat) (subscripts : List TensorUpdateSubscript) :
    Option (Nat × Degree) :=
  if dimensions.length ≠ subscripts.length then none
  else
    (dimensions.zip subscripts).foldlM (fun (count, selector) (dimension, subscript) =>
      match subscript with
      | .whole => do pure (← checkedUsize (count * dimension), selector)
      | .index (.constant _) => some (count, selector)
      | .index (.runtime register) => do pure (count, selector.max (← registers.read register 1))
      | .slice start dimensions => do
        let size ← extent dimensions
        let count ← checkedUsize (count * size)
        pure (count, selector.max (← registers.read start size))) (1, .independent)

variable {F : Type}

def tensorDegree (registers : Registers) : LinearOp F → Option Degree
  | .tensorConcatenate _ sources _ _ 1 =>
    sources.foldlM (fun degree source => do
      pure (degree.max (← registers.read source.start (← extent source.dimensions)))) .independent
  | .tensorTranspose _ srcStart rows columns elementWidth 1 => do
    registers.read srcStart (← checkedUsize ((← checkedUsize (rows * columns)) * elementWidth))
  | .tensorUpdate _ baseStart valueStart dimensions subscripts 1 => do
    let (count, selector) ← patch registers dimensions subscripts
    let base ← registers.read baseStart (← extent dimensions)
    let value ← registers.read valueStart count
    pure (if selector = .independent then base.max value else .nonlinear)
  | _ => none

/-- The bound of what one operation writes; `isFinite` is the literal's own test. -/
def operationDegree (isFinite : F → Bool) (registers : Registers) (targets : Finset Nat) (operation : LinearOp F) :
    Option Degree :=
  match operation with
  | .const _ value => if isFinite value then some .independent else tensorDegree registers operation
  | .loadP .. | .loadTime .. | .tensorIdentity _ _ 1 => some .independent
  | .loadY _ index => some (if index ∈ targets then .affine else .independent)
  | .move _ src => registers.read src 1
  | .unary _ op arg => do
    let value ← registers.read arg 1
    pure (if op = .neg ∨ value = .independent then value else .nonlinear)
  | .binary _ op lhs rhs => do
    let lhs ← registers.read lhs 1
    pure (lhs.binary op (← registers.read rhs 1))
  -- The right operand is read only when the left one is independent.
  | .compare _ _ lhs rhs => do
    if (← registers.read lhs 1) = .independent then
      if (← registers.read rhs 1) = .independent then some .independent else some .nonlinear
    else some .nonlinear
  | .select _ cond ifTrue ifFalse => do
    if (← registers.read cond 1) = .independent then
      let ifTrue ← registers.read ifTrue 1
      pure (ifTrue.max (← registers.read ifFalse 1))
    else some .nonlinear
  | .tensorLoad _ input inputStart count _ 1 =>
    match input with
    | .p => some .independent
    | .y => do
      let stop ← checkedUsize (inputStart + count)
      pure (if ∃ target ∈ targets, inputStart ≤ target ∧ target < stop then .affine else .independent)
  | .tensorFill _ valueStart _ 1 => registers.read valueStart 1
  | .tensorBinary _ op lhsStart rhsStart count lhsStride rhsStride 1 => do
    let lhs ← registers.readStrided lhsStart count lhsStride
    pure (lhs.binary op (← registers.readStrided rhsStart count rhsStride))
  | .tensorCross _ lhsStart rhsStart 1 => do
    let lhs ← registers.read lhsStart 3
    pure (lhs.product (← registers.read rhsStart 3))
  | .matrixMultiply _ lhsStart rhsStart rows inner columns 1 => do
    let lhs ← registers.read lhsStart (← checkedUsize (rows * inner))
    pure (lhs.product (← registers.read rhsStart (← checkedUsize (inner * columns))))
  | operation => tensorDegree registers operation

/-! ## Selected outputs -/

/-- The offsets still to be read, and the outputs stored so far. -/
structure SelectedStores where
  offsets : List Nat
  outputStart : Nat
deriving DecidableEq, Repr

namespace SelectedStores

def isComplete (selected : SelectedStores) : Bool := selected.offsets.isEmpty

/-- Reads the offsets inside one store, and answers those past it. -/
def readOffsets (visit : Degree → Bool) (registers : Registers) (start : Nat) (count stride outputStart : Nat) :
    List Nat → Option (List Nat)
  | [] => some []
  | output :: rest => do
    if output < outputStart then none
    else if count ≤ output - outputStart then some (output :: rest)
    else
      let register ← checkedU32 (start + (← checkedU32 (← checkedUsize ((output - outputStart) * stride))))
      if visit (← registers.read register 1) then
        readOffsets visit registers start count stride outputStart rest
      else none

def read (visit : Degree → Bool) (selected : SelectedStores) (registers : Registers) (start : Nat)
    (count stride : Nat) : Option SelectedStores := do
  let offsets ← readOffsets visit registers start count stride selected.outputStart selected.offsets
  if offsets.isEmpty then pure { selected with offsets }
  else pure ⟨offsets, ← checkedUsize (selected.outputStart + count)⟩

end SelectedStores

/-! ## Programs -/

/-- What the analysis of a program is given: the test of a literal and the interactions of call sites. -/
structure Interface (F : Type) where
  isFinite : F → Bool
  pureCall : SiteAffinity
  pureCallDirectional : SiteAffinity

/-- One operation of `visit_program_degrees`. -/
def visitOperation (interface : Interface F) (visit : Degree → Bool) (targets : Finset Nat)
    (s : Registers × SelectedStores) (operation : LinearOp F) : Option (Registers × SelectedStores) :=
  match operation with
  | .storeOutput src => do pure (s.1, ← s.2.read visit s.1 src 1 1)
  | .storeOutputRange start count stride => do pure (s.1, ← s.2.read visit s.1 start count stride)
  | .pureCall dstStart inputStarts site => do
    let inputs ← callInputs s.1 inputStarts site.inputs
    let degrees ← interface.pureCall.outputDegrees site inputs
    pure (← storeCall s.1 dstStart degrees site.outputs, s.2)
  | .pureCallDirectional dstStart inputStarts site => do
    let inputs ← callInputs s.1 inputStarts site.inputs
    let degrees ← interface.pureCallDirectional.outputDegrees site inputs
    pure (← storeCall s.1 dstStart degrees site.outputs, s.2)
  | operation => do
    let degree ← operationDegree interface.isFinite s.1 targets operation
    pure (← s.1.write (← operation.dstRegister) operation.dstRegisterCount degree, s.2)

/-- The operations of a program from `s` on, until the last selected offset is read. -/
def visitOperations (interface : Interface F) (visit : Degree → Bool) (targets : Finset Nat) :
    List (LinearOp F) → Registers × SelectedStores → Option Unit
  | [], s => if s.2.isComplete then some () else none
  | operation :: rest, s =>
    if s.2.isComplete then some ()
    else do visitOperations interface visit targets rest (← visitOperation interface visit targets s operation)

def visitProgramDegrees (interface : Interface F) (program : List (LinearOp F)) (targets : Finset Nat)
    (outputOffsets : List Nat) (visit : Degree → Bool) : Option Unit :=
  visitOperations interface visit targets program ([], ⟨outputOffsets, 0⟩)

/-! ## Blocks -/

/-- The store a row of the source is: an offset among the outputs of one program. -/
structure SourceOutput (F : Type) where
  node : Nat
  program : Nat
  operations : List (LinearOp F)
  offset : Nat

structure SelectedProgram (F : Type) where
  node : Nat
  program : Nat
  operations : List (LinearOp F)
  offsets : List Nat

/-- `BTreeSet::insert` on an ascending list. -/
def insertOffset (offset : Nat) : List Nat → List Nat
  | [] => [offset]
  | first :: rest =>
    if offset < first then offset :: first :: rest
    else if offset = first then first :: rest
    else first :: insertOffset offset rest

def selectOutput (output : SourceOutput F) : List (SelectedProgram F) → List (SelectedProgram F)
  | [] => [⟨output.node, output.program, output.operations, [output.offset]⟩]
  | first :: rest =>
    if output.node = first.node ∧ output.program = first.program then
      { first with offsets := insertOffset output.offset first.offsets } :: rest
    else if output.node < first.node ∨ (output.node = first.node ∧ output.program < first.program) then
      ⟨output.node, output.program, output.operations, [output.offset]⟩ :: first :: rest
    else first :: selectOutput output rest

def admits (degree : Degree) : Bool := degree != .nonlinear

def blockIsAffine (interface : Interface F) (outputs : Nat → Option (SourceOutput F)) (rows : List Nat)
    (targets : Finset Nat) : Bool :=
  match rows.foldlM (fun programs row => do pure (selectOutput (← outputs row) programs)) [] with
  | none => false
  | some programs => programs.all fun program =>
      (visitProgramDegrees interface program.operations targets program.offsets admits).isSome

/-! ## Sources -/

/-- A block of scalar programs; without explicit output indices its outputs follow the ones before it. -/
structure ScalarProgramBlock (F : Type) where
  programs : List (List (LinearOp F))
  storedOutputCount : Nat
  outputIndices : Option (List Nat)

namespace ScalarProgramBlock

def programOutputCount (program : List (LinearOp F)) : Nat :=
  let count := program.foldlM (fun count operation =>
    checkedUsize (count + match operation with
      | .storeOutput _ => 1
      | .storeOutputRange _ count _ => count
      | _ => 0)) 0
  count.getD usizeMax

def computeBlockOutputIndices (block : ScalarProgramBlock F) (outputCursor : Nat) : Option (List Nat) :=
  match block.outputIndices with
  | none => do
    let stop ← checkedUsize (outputCursor + block.storedOutputCount)
    pure (List.range' outputCursor (stop - outputCursor))
  | some indices => some indices

def advanceComputeBlockOutputCursor (block : ScalarProgramBlock F) (outputCursor : Nat) : Option Nat :=
  match block.outputIndices with
  | none => checkedUsize (outputCursor + block.storedOutputCount)
  | some indices =>
    match indices.max? with
    | none => some outputCursor
    | some maxIndex => do pure (Nat.max outputCursor (← checkedUsize (maxIndex + 1)))

def sourceOutputs (block : ScalarProgramBlock F) (node : Nat) : List (SourceOutput F) :=
  block.programs.zipIdx.flatMap fun (operations, program) =>
    (List.range (programOutputCount operations)).map fun offset => ⟨node, program, operations, offset⟩

end ScalarProgramBlock

/-- `BTreeMap::insert` of an output into a row that has none. -/
def insertOutput (programs : List (Nat × SourceOutput F)) (entry : Nat × SourceOutput F) :
    Option (List (Nat × SourceOutput F)) :=
  if (programs.lookup entry.1).isSome then none else some (entry :: programs)

/-- One node of a source whose nodes are all blocks of scalar programs; any other node is `none`. -/
def collectNode (s : List (Nat × SourceOutput F) × Nat) (node : Option (ScalarProgramBlock F) × Nat) :
    Option (List (Nat × SourceOutput F) × Nat) := do
  let block ← node.1
  let outputs ← block.computeBlockOutputIndices s.2
  let cursor ← block.advanceComputeBlockOutputCursor s.2
  let programs ← (outputs.zip (block.sourceOutputs node.2)).foldlM insertOutput s.1
  pure (programs, cursor)

def scalarOutputPrograms (source : List (Option (ScalarProgramBlock F))) : Option (List (Nat × SourceOutput F)) := do
  pure (← source.zipIdx.foldlM collectNode ([], 0)).1

/-- A simultaneous block of a plan: its index, rows and unknowns. -/
structure PlanBlock where
  index : Nat
  rows : List Nat
  yIndices : List Nat
deriving DecidableEq, Repr

def recordAffinity (proofs : List (Nat × Bool)) (proof : Nat × Bool) : List (Nat × Bool) :=
  match proofs.lookup proof.1 with
  | some prior => Lib.insertEntry proofs proof.1 (prior && proof.2)
  | none => Lib.insertEntry proofs proof.1 proof.2

def projectionAffinities (interface : Interface F) (source : List (Option (ScalarProgramBlock F)))
    (plan : List PlanBlock) : List (Nat × Bool) :=
  match scalarOutputPrograms source with
  | none => []
  | some programs =>
    (plan.map fun block =>
      (block.index, blockIsAffine interface (fun row => programs.lookup row) block.rows block.yIndices.toFinset)).foldl
      recordAffinity []

end Rumoca.Solve.Affinity
