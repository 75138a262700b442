import Rumoca.Solve.RegisterFlow
/-!
# Symbolic evaluation of programs

Hash-consed terms, the register-independent shape of an operation, and the
evaluation of programs over them. The shape of an operation is the text its
`Debug` form prints, which is the parameter `debug`. A hash map is the list
of its entries.
-/

namespace Rumoca.Solve

abbrev Term := Nat

structure OperationKey where
  shape : Nat
  operands : List (Nat × Term)
deriving DecidableEq, Repr

/-- The id of an operation's key, with the block of terms of its outputs. -/
structure ValueKey where
  id : Nat
  base : Term
  width : Nat
deriving DecidableEq, Repr

structure Terms where
  slots : List (Nat × Term)
  operations : List (OperationKey × ValueKey)
  shapes : List (String × Nat)
  next : Term
deriving Repr

namespace Terms

def empty : Terms := ⟨[], [], [], 0⟩

/-- The term of slot `index` as the sequence found it. -/
def slot (terms : Terms) (index : Nat) : Terms × Term :=
  let (slots, term) := match terms.slots.lookup index with
    | some term => (terms.slots, term)
    | none => ((index, terms.next) :: terms.slots, terms.next)
  ({ terms with slots, next := terms.next + if term = terms.next then 1 else 0 }, term)

def internShape (terms : Terms) (shape : String) : Terms × Nat :=
  match terms.shapes.lookup shape with
  | some id => (terms, id)
  | none => ({ terms with shapes := (shape, terms.shapes.length) :: terms.shapes }, terms.shapes.length)

def operationKey (terms : Terms) (operation : OperationKey) (width : Nat) : Terms × ValueKey :=
  let next : ValueKey := ⟨terms.operations.length, terms.next, width⟩
  let (operations, key) := match terms.operations.lookup operation with
    | some key => (terms.operations, key)
    | none => ((operation, next) :: terms.operations, next)
  ({ terms with operations, next := terms.next + if key = next then width else 0 }, key)

/-- The key of the value of shape `shape` over `operands`, with `width` outputs. -/
def key (terms : Terms) (shape : String) (operands : List (Nat × Term)) (width : Nat) : Terms × ValueKey :=
  let interned := terms.internShape shape
  interned.1.operationKey ⟨interned.2, operands⟩ width

/-- Output `output` of `key`, below the width it was issued with. -/
def value (key : ValueKey) (output : Nat) : Option Term :=
  if output < key.width then some (key.base + output) else none

end Terms

/-! ## Shapes -/

/-- How an operation uses one register field. -/
inductive Role where
  | destination | scalar | rangeStart
deriving DecidableEq, Repr

def pureValueCall (site : PureCallSite) : Bool := site.outputs.all fun output => output.1 = .result

namespace LinearOp

variable {F : Type}

/-- Whether a segment renames the operation: a pure value of scalar or range sources. -/
def renamable : LinearOp F → Bool
  | .const .. | .loadTime .. | .loadP .. | .unary .. | .binary .. | .compare .. | .select .. | .dotProduct ..
  | .matrixMultiply .. | .tensorBinary .. | .tensorCross .. | .tensorTranspose .. | .tensorConcatenate ..
  | .tensorFill .. | .tensorIdentity .. => true
  | .tensorLoad _ .p _ _ none 1 => true
  | .pureCall _ _ site => pureValueCall site
  | _ => false

/-- `visit_registers`: rewrite every register field of a renamable operation. -/
def mapRegisters (visit : Role → Reg → Reg) : LinearOp F → LinearOp F
  | .const dst value => .const (visit .destination dst) value
  | .loadTime dst => .loadTime (visit .destination dst)
  | .loadP dst index => .loadP (visit .destination dst) index
  | .unary dst op arg => .unary (visit .destination dst) op (visit .scalar arg)
  | .binary dst op lhs rhs => .binary (visit .destination dst) op (visit .scalar lhs) (visit .scalar rhs)
  | .compare dst op lhs rhs => .compare (visit .destination dst) op (visit .scalar lhs) (visit .scalar rhs)
  | .select dst cond ifTrue ifFalse =>
    .select (visit .destination dst) (visit .scalar cond) (visit .scalar ifTrue) (visit .scalar ifFalse)
  | .dotProduct dst lhs rhs count lhsStride rhsStride =>
    .dotProduct (visit .destination dst) (visit .rangeStart lhs) (visit .rangeStart rhs) count lhsStride rhsStride
  | .matrixMultiply dst lhs rhs rows inner columns lanes =>
    .matrixMultiply (visit .destination dst) (visit .rangeStart lhs) (visit .rangeStart rhs) rows inner columns lanes
  | .tensorBinary dst op lhs rhs count lhsStride rhsStride lanes =>
    .tensorBinary (visit .destination dst) op (visit .rangeStart lhs) (visit .rangeStart rhs) count lhsStride rhsStride
      lanes
  | .tensorCross dst lhs rhs lanes =>
    .tensorCross (visit .destination dst) (visit .rangeStart lhs) (visit .rangeStart rhs) lanes
  | .tensorTranspose dst src rows columns elementWidth lanes =>
    .tensorTranspose (visit .destination dst) (visit .rangeStart src) rows columns elementWidth lanes
  | .tensorFill dst value count lanes => .tensorFill (visit .destination dst) (visit .rangeStart value) count lanes
  | .tensorConcatenate dst sources dimensions axis lanes =>
    .tensorConcatenate (visit .destination dst)
      (sources.map fun source => { source with start := visit .rangeStart source.start }) dimensions axis lanes
  | .tensorIdentity dst size lanes => .tensorIdentity (visit .destination dst) size lanes
  | .tensorLoad dst input inputStart count seedStart lanes =>
    .tensorLoad (visit .destination dst) input inputStart count seedStart lanes
  | .pureCall dst inputStarts site =>
    .pureCall (visit .destination dst) (inputStarts.map (visit .rangeStart)) site
  | op => op

/-- The register fields `visit_registers` visits, in order. -/
def registerFields : LinearOp F → List (Role × Reg)
  | .const dst _ | .loadTime dst | .loadP dst _ => [(.destination, dst)]
  | .unary dst _ arg => [(.scalar, arg), (.destination, dst)]
  | .binary dst _ lhs rhs | .compare dst _ lhs rhs => [(.scalar, lhs), (.scalar, rhs), (.destination, dst)]
  | .select dst cond ifTrue ifFalse => [(.scalar, cond), (.scalar, ifTrue), (.scalar, ifFalse), (.destination, dst)]
  | .dotProduct dst lhs rhs .. | .matrixMultiply dst lhs rhs .. | .tensorBinary dst _ lhs rhs ..
  | .tensorCross dst lhs rhs _ => [(.rangeStart, lhs), (.rangeStart, rhs), (.destination, dst)]
  | .tensorTranspose dst src .. => [(.rangeStart, src), (.destination, dst)]
  | .tensorFill dst value .. => [(.rangeStart, value), (.destination, dst)]
  | .tensorConcatenate dst sources .. =>
    sources.map (fun source => (.rangeStart, source.start)) ++ [(.destination, dst)]
  | .tensorIdentity dst .. | .tensorLoad dst .. => [(.destination, dst)]
  | .pureCall dst inputStarts _ => inputStarts.map (fun start => (.rangeStart, start)) ++ [(.destination, dst)]
  | _ => []

def recordsOperandOffsets (op : LinearOp F) : Bool :=
  !op.renamable || op.registerFields.any fun field => field.1 = .rangeStart

end LinearOp

/-- The register-independent form of a value operation. -/
structure ValueShape where
  shape : String
  operands : List (Nat × Reg)
  reads : List Reg
  ranged : Bool

section
variable {F : Type} (debug : LinearOp F → String)

/-- The shape of `op`; `none` when its sources are rejected. -/
def valueShape (op : LinearOp F) : Option ValueShape := do
  let reads ← readRegisters op
  let lowest := reads.head?.getD 0
  let offsets := reads.map fun register => (register - lowest, register)
  if ¬ op.renamable then pure ⟨debug op, offsets, reads, true⟩
  else
    let ranged := op.recordsOperandOffsets
    let scalar := (op.registerFields.filter fun field => field.1 = .scalar).map (·.2)
    let normalized := op.mapRegisters fun role register =>
      match role with
      | .destination => 0
      | .scalar => if ranged then register - lowest else 0
      | .rangeStart => register - lowest
    pure ⟨debug normalized, if ranged then offsets else scalar.zipIdx.map Prod.swap, reads, ranged⟩

/-! ## Evaluation -/

abbrev SymbolicSlots := List (Nat × Term)

/-- `insert` of a hash map. -/
def insertEntry {α : Type} (entries : List (Nat × α)) (key : Nat) (value : α) : List (Nat × α) :=
  (key, value) :: entries.filter fun entry => entry.1 ≠ key

namespace SymbolicSlots

def slot (slots : SymbolicSlots) (terms : Terms) (index : Nat) : Terms × Term :=
  match slots.lookup index with
  | some term => (terms, term)
  | none => terms.slot index

def commit {α : Type} (slots : List (Nat × α)) (targets : List Nat) (outputs : List α) : List (Nat × α) :=
  (targets.zip outputs).foldl (fun slots stored => insertEntry slots stored.1 stored.2) slots

end SymbolicSlots

/-- One region under evaluation. -/
structure RegionTerms where
  terms : Terms
  registers : Reg → Option Term
  outputs : List Term

/-- Set `count` registers from `start` on to the outputs of `value`. -/
def insertRange {α : Type} (registers : Reg → Option α) (start : Reg) (values : List α) : Reg → Option α :=
  values.zipIdx.foldl (fun registers (value, offset) => Function.update registers (start.offset offset) (some value))
    registers

def storedOutputs : LinearOp F → Nat
  | .storeOutputFunctionFold _ _ _ _ count .. => count
  | .storeOutputFoldTensorUpdate _ _ dimensions _ _ _ lanes => dimensions.foldl saturatingMul lanes
  | _ => 0

def writtenCount (op : LinearOp F) : Nat := if op.dstRegister.isSome then op.dstRegisterCount else 0

/-- `value_step`: any other operation. -/
def valueStep (op : LinearOp F) (s : RegionTerms) : Option RegionTerms := do
  let shape ← valueShape debug op
  let operands ← shape.operands.mapM fun (field, register) => do
    let term ← s.registers register
    pure (field, term)
  let (terms, key) := s.terms.key shape.shape operands (max (storedOutputs op) (writtenCount op))
  let stored ← (List.range (storedOutputs op)).mapM (Terms.value key)
  let results ← (List.range (writtenCount op)).mapM (Terms.value key)
  pure ⟨terms, insertRange s.registers (op.dstRegister.getD 0) results, s.outputs ++ stored⟩

/-- The terms of `count` slots from `first` on. -/
def slotTerms (slots : SymbolicSlots) (terms : Terms) (first count : Nat) : Terms × List Term :=
  (List.range count).foldl (fun (terms, loaded) offset =>
    let (terms, term) := slots.slot terms (first + offset)
    (terms, loaded ++ [term])) (terms, [])

def yLoad : LinearOp F → Option (Reg × Nat × Nat)
  | .loadY dst index => some (dst, index, 1)
  | .tensorLoad dstStart .y inputStart count none 1 => some (dstStart, inputStart, count)
  | _ => none

def storedRegisters : LinearOp F → Option (List Reg)
  | .storeOutput src => some [src]
  | .storeOutputRange start count stride =>
    some ((List.range count).map fun ordinal => start.offset (ordinal * stride))
  | _ => none

def SymbolicSlots.step (slots : SymbolicSlots) (s : RegionTerms) (op : LinearOp F) : Option RegionTerms :=
  match yLoad op with
  | some (dst, first, count) =>
    let (terms, loaded) := slotTerms slots s.terms first count
    some { s with terms, registers := insertRange s.registers dst loaded }
  | none =>
    match storedRegisters op with
    | some registers => do
      let stored ← registers.mapM s.registers
      pure { s with outputs := s.outputs ++ stored }
    | none =>
      match op with
      | .move dst src => do
        let term ← s.registers src
        pure { s with registers := Function.update s.registers dst (some term) }
      | _ => valueStep debug op s

/-- A program with the slot each output stores into. -/
structure AssignmentProgram (F : Type) where
  ops : List (LinearOp F)
  targets : List Nat

def SymbolicSlots.run (slots : SymbolicSlots) (terms : Terms) (program : AssignmentProgram F) :
    Option (Terms × SymbolicSlots × List Term) := do
  let region ← program.ops.foldlM (SymbolicSlots.step debug slots) ⟨terms, fun _ => none, []⟩
  if region.outputs.length ≠ program.targets.length then none
  else pure (region.terms, commit slots program.targets region.outputs, region.outputs)

def runNext (s : Terms × SymbolicSlots × List Term) (program : AssignmentProgram F) :
    Option (Terms × SymbolicSlots × List Term) :=
  (SymbolicSlots.run debug s.2.1 s.1 program).map fun found => (found.1, found.2.1, s.2.2 ++ found.2.2)

def runSymbolically (programs : List (AssignmentProgram F)) (terms : Terms) :
    Option (Terms × SymbolicSlots × List Term) := programs.foldlM (runNext debug) (terms, [], [])

/-- Why segments are not an equivalent form of their programs. -/
inductive SharedValueError where
  | unevaluable
  | outputCount
  | output (index : Nat)
  | finalSlot (slot : Nat)
deriving DecidableEq, Repr

/-- Require every output, in order, and every final slot to be the identical term. -/
def checkSymbolically (programs segments : List (AssignmentProgram F)) : Except SharedValueError Unit :=
  match runSymbolically debug programs Terms.empty with
  | none => throw .unevaluable
  | some (terms, before, expected) =>
    match runSymbolically debug segments terms with
    | none => throw .unevaluable
    | some (_, after, found) =>
      if expected.length ≠ found.length then throw .outputCount
      else
        match (expected.zip found).findIdx? fun pair => pair.1 ≠ pair.2 with
        | some index => throw (.output index)
        | none =>
          match before.find? fun entry => before.lookup entry.1 ≠ after.lookup entry.1 with
          | some (slot, _) => throw (.finalSlot slot)
          | none =>
            match after.find? fun entry => (before.lookup entry.1).isNone with
            | some (slot, _) => throw (.finalSlot slot)
            | none => pure ()

end

end Rumoca.Solve
