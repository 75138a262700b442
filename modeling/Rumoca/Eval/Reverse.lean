import Rumoca.Eval.Arithmetic
/-!
# The reverse sweep

One forward pass records the registers of a row; the backward pass gathers
the adjoint of each register and leaves the input cotangents at the loads.
Registers are functions that are zero past the row's register count. Only the
operations with a reverse rule are accepted; any other is an error.
-/

namespace Rumoca.Eval

open Solve

/-- The point of one evaluation. -/
structure ReverseInputs (K : Type) where
  y : List K
  p : List K
  t : K
  seed : Option (List K)

/-- Cotangents of the inputs; an index past the end is not tracked. -/
structure ReverseCotangents (K : Type) where
  y : List K
  p : List K
  seed : List K

structure ReverseScratch (K : Type) where
  regs : Reg → K
  adj : Reg → K
  untaken : Reg → Bool

/-- What the backward pass changes. -/
structure Adjoints (K : Type) where
  adj : Reg → K
  untaken : Reg → Bool
  cot : ReverseCotangents K

def unsupported (reason : String) : EvalSolveError := .invalidRow reason

def unsupportedReverseOp {K : Type} (op : LinearOp K) : EvalSolveError :=
  unsupported s!"reverse-mode AD does not yet support the `{op.kindName}` op (Track B: tensor / table / random VJP)"

/-- `offset`: a register of a row stays below its register count. -/
def registerAt (start : Reg) (index : Nat) : Reg := start + index

/-- `load`. -/
def loadInput {K : Type} (values : List K) (name : String) (index : Nat) : Except EvalSolveError K :=
  match values[index]? with
  | some value => .ok value
  | none => .error (unsupported s!"{name}[{index}] out of range for reverse sweep")

section
variable {K : Type} [Field K] [LinearOrder K] (E : Elementary K)

/-! ## Tensor operations -/

omit [Field K] [LinearOrder K] in
/-- Whether the tensor rules own the operation. -/
def tensorSupported : LinearOp K → Bool
  | .tensorLoad _ _ _ _ none 1 | .dotProduct .. | .matrixMultiply _ _ _ _ _ _ 1 | .tensorBinary _ _ _ _ _ _ _ 1
  | .tensorTranspose _ _ _ _ _ 1 | .tensorFill _ _ _ 1 | .tensorIdentity _ _ 1 => true
  | _ => false

def overlap (dst src : Reg × Nat) : Bool := dst.1 < src.1 + src.2 ∧ src.1 < dst.1 + dst.2

def extent (count stride : Nat) : Nat := if stride = 0 then 1 else (count - 1) * stride + 1

omit [Field K] [LinearOrder K] in
/-- `refuse_overlap`: the destination range meets a source range. -/
def overlapping : LinearOp K → Bool
  | .matrixMultiply dstStart lhsStart rhsStart rows inner columns _ =>
    let dst := (dstStart, rows * columns)
    overlap dst (lhsStart, rows * inner) || overlap dst (rhsStart, inner * columns)
  | .tensorBinary dstStart _ lhsStart rhsStart count lhsStride rhsStride _ =>
    let dst := (dstStart, count)
    overlap dst (lhsStart, extent count lhsStride) || overlap dst (rhsStart, extent count rhsStride)
  | .tensorTranspose dstStart srcStart rows columns elementWidth _ =>
    overlap (dstStart, rows * columns * elementWidth) (srcStart, rows * columns * elementWidth)
  | .tensorFill dstStart valueStart count _ => overlap (dstStart, count) (valueStart, 1)
  | _ => false

def transposeSource (rows columns elementWidth index : Nat) : Nat :=
  let element := index / elementWidth
  let (row, column) := (element / columns, element % columns)
  (column * rows + row) * elementWidth + index % elementWidth

def transposePairs (dstStart srcStart : Reg) (rows columns elementWidth : Nat) : List (Reg × Reg) :=
  (List.range (rows * columns * elementWidth)).map fun index =>
    (registerAt dstStart index, registerAt srcStart (transposeSource rows columns elementWidth index))

def dotTerms (lhsStart rhsStart : Reg) (count lhsStride rhsStride : Nat) : List (Reg × Reg) :=
  (List.range count).map fun term => (registerAt lhsStart (term * lhsStride), registerAt rhsStart (term * rhsStride))

def productTerms (lhsStart rhsStart : Reg) (inner columns row column : Nat) : List (Reg × Reg) :=
  (List.range inner).map fun term =>
    (registerAt lhsStart (row * inner + term), registerAt rhsStart (term * columns + column))

/-- The sum of the products of `terms`. -/
def sumTerms (regs : Reg → K) (terms : List (Reg × Reg)) : K :=
  terms.foldl (fun value term => value + regs term.1 * regs term.2) 0

def inputSpace (inputs : ReverseInputs K) : TensorInputKind → List K × String
  | .y => (inputs.y, "y")
  | .p => (inputs.p, "p")

def forwardTensor (inputs : ReverseInputs K) (regs : Reg → K) : LinearOp K → Except EvalSolveError (Reg → K)
  | .tensorLoad dstStart input inputStart count _ _ =>
    (List.range count).foldlM (fun regs element => do
      let value ← loadInput (inputSpace inputs input).1 (inputSpace inputs input).2 (inputStart + element)
      pure (Function.update regs (registerAt dstStart element) value)) regs
  | .dotProduct dst lhsStart rhsStart count lhsStride rhsStride =>
    .ok (Function.update regs dst (sumTerms regs (dotTerms lhsStart rhsStart count lhsStride rhsStride)))
  | .matrixMultiply dstStart lhsStart rhsStart rows inner columns _ =>
    .ok ((List.range rows ×ˢ List.range columns).foldl (fun regs cell =>
      Function.update regs (registerAt dstStart (cell.1 * columns + cell.2))
        (sumTerms regs (productTerms lhsStart rhsStart inner columns cell.1 cell.2))) regs)
  | .tensorBinary dstStart op lhsStart rhsStart count lhsStride rhsStride _ =>
    .ok ((List.range count).foldl (fun regs element =>
      Function.update regs (registerAt dstStart element)
        (evalBinary E op (regs (registerAt lhsStart (element * lhsStride)))
          (regs (registerAt rhsStart (element * rhsStride))))) regs)
  | .tensorTranspose dstStart srcStart rows columns elementWidth _ =>
    .ok ((transposePairs dstStart srcStart rows columns elementWidth).foldl
      (fun regs pair => Function.update regs pair.1 (regs pair.2)) regs)
  | .tensorFill dstStart valueStart count _ =>
    let value := regs valueStart
    .ok ((List.range count).foldl (fun regs element => Function.update regs (registerAt dstStart element) value) regs)
  | .tensorIdentity dstStart size _ =>
    .ok ((List.range size ×ˢ List.range size).foldl (fun regs cell =>
      Function.update regs (registerAt dstStart (cell.1 * size + cell.2)) (if cell.1 = cell.2 then 1 else 0)) regs)
  | _ => .ok regs

omit [Field K] [LinearOrder K] in
def refusedOverlap (op : LinearOp K) : EvalSolveError :=
  unsupported s!"reverse-mode AD refuses a `{op.kindName}` whose destination overlaps a source range"

/-! ## The forward pass -/

/-- One operation of `forward_row_tape`. -/
def forwardOp (inputs : ReverseInputs K) (regs : Reg → K) (op : LinearOp K) : Except EvalSolveError (Reg → K) :=
  match op with
  | .const dst value => .ok (Function.update regs dst value)
  | .loadTime dst => .ok (Function.update regs dst inputs.t)
  | .loadY dst index => do
    let value ← loadInput inputs.y "y" index
    pure (Function.update regs dst value)
  | .loadP dst index => do
    let value ← loadInput inputs.p "p" index
    pure (Function.update regs dst value)
  | .loadIndexedP dst base count index => do
    let slot := resolveIndexedSlot E (regs index) base count
    let value ← loadInput inputs.p "p" slot
    pure (Function.update regs dst value)
  | .loadSeed dst index =>
    match inputs.seed with
    | none => .error (unsupported "LoadSeed evaluated without a seed vector")
    | some seed => do
      let value ← loadInput seed "seed" index
      pure (Function.update regs dst value)
  | .move dst src => .ok (Function.update regs dst (regs src))
  | .unary dst op arg => .ok (Function.update regs dst (evalUnary E op (regs arg)))
  | .binary dst op lhs rhs => .ok (Function.update regs dst (evalBinary E op (regs lhs) (regs rhs)))
  | .compare dst op lhs rhs => .ok (Function.update regs dst (evalCompare op (regs lhs) (regs rhs)))
  | .select dst cond ifTrue ifFalse =>
    .ok (Function.update regs dst (if regs cond ≠ 0 then regs ifTrue else regs ifFalse))
  | .linearSolveComponent dst matrixStart rhsStart n component => do
    let solution ← solveLinearSystem (fun k => regs (matrixStart + k)) (fun k => regs (rhsStart + k)) n
    pure (Function.update regs dst (if component < n then solution.getD component 0 else 0))
  | .storeOutput _ => .ok regs
  | .storeOutputRange .. => .ok regs
  | op =>
    if tensorSupported op then
      if overlapping op then .error (refusedOverlap op) else forwardTensor E inputs regs op
    else .error (unsupportedReverseOp op)

def forwardRowTape (inputs : ReverseInputs K) (row : List (LinearOp K)) (regs : Reg → K) :
    Except EvalSolveError (Reg → K) :=
  row.foldlM (forwardOp E inputs) regs

/-! ## The backward pass -/

def addAdj (adj : Reg → K) (r : Reg) (value : K) : Reg → K := Function.update adj r (adj r + value)

def takeAdj (adj : Reg → K) (r : Reg) : K × (Reg → K) := (adj r, Function.update adj r 0)

def takeRange (adj : Reg → K) (start : Reg) (count : Nat) : List K × (Reg → K) :=
  (List.range count).foldl (fun s index =>
    let taken := takeAdj s.2 (registerAt start index)
    (s.1 ++ [taken.1], taken.2)) ([], adj)

def accumulate (values : List K) (index : Nat) (value : K) : List K := values.modify index (· + value)

/-- Whether `dst` holds only the value of an unselected arm; its operands then inherit the mark. -/
def skipsUntaken (untaken : Reg → Bool) (adj : Reg → K) (dst : Reg) (dstAdj : K) (operands : List Reg) :
    Bool × (Reg → Bool) :=
  if dstAdj = 0 then
    if untaken dst then
      (true, operands.foldl (fun untaken operand => if adj operand = 0 then Function.update untaken operand true else untaken)
        (Function.update untaken dst false))
    else (false, Function.update untaken dst false)
  else (false, untaken)

/-- Pass `contributions` on to the operands, unless the mark of `dst` says to skip them. -/
def passOn (s : Adjoints K) (dst : Reg) (dstAdj : K) (operands : List Reg) (contributions : List (Reg × K)) :
    Adjoints K :=
  let (skip, untaken) := skipsUntaken s.untaken s.adj dst dstAdj operands
  if skip then { s with untaken }
  else { s with untaken, adj := contributions.foldl (fun adj c => addAdj adj c.1 c.2) s.adj }

def dotContributions (tape : Reg → K) (g : K) (terms : List (Reg × Reg)) : List (Reg × K) :=
  terms.flatMap fun term => [(term.1, g * tape term.2), (term.2, g * tape term.1)]

def dotOperands (terms : List (Reg × Reg)) : List Reg := terms.flatMap fun term => [term.1, term.2]

def reverseTensor (tape : Reg → K) (s : Adjoints K) : LinearOp K → Adjoints K
  | .tensorLoad dstStart input inputStart count _ _ =>
    (List.range count).foldl (fun s element =>
      let dst := registerAt dstStart element
      let untaken := Function.update s.untaken dst false
      let (g, adj) := takeAdj s.adj dst
      match input with
      | .y => { adj, untaken, cot := { s.cot with y := accumulate s.cot.y (inputStart + element) g } }
      | .p => { adj, untaken, cot := { s.cot with p := accumulate s.cot.p (inputStart + element) g } }) s
  | .dotProduct dst lhsStart rhsStart count lhsStride rhsStride =>
    let (g, adj) := takeAdj s.adj dst
    let terms := dotTerms lhsStart rhsStart count lhsStride rhsStride
    passOn { s with adj } dst g (dotOperands terms) (dotContributions tape g terms)
  | .matrixMultiply dstStart lhsStart rhsStart rows inner columns _ =>
    let (dstAdj, adj) := takeRange s.adj dstStart (rows * columns)
    dstAdj.zipIdx.foldl (fun s output =>
      let terms := productTerms lhsStart rhsStart inner columns (output.2 / columns) (output.2 % columns)
      passOn s (registerAt dstStart output.2) output.1 (dotOperands terms) (dotContributions tape output.1 terms))
      { s with adj }
  | .tensorBinary dstStart op lhsStart rhsStart count lhsStride rhsStride _ =>
    let (dstAdj, adj) := takeRange s.adj dstStart count
    dstAdj.zipIdx.foldl (fun s element =>
      let lhs := registerAt lhsStart (element.2 * lhsStride)
      let rhs := registerAt rhsStart (element.2 * rhsStride)
      let (dl, dr) := binaryPartials E op (tape lhs) (tape rhs)
      passOn s (registerAt dstStart element.2) element.1 [lhs, rhs] [(lhs, element.1 * dl), (rhs, element.1 * dr)])
      { s with adj }
  | .tensorTranspose dstStart srcStart rows columns elementWidth _ =>
    (transposePairs dstStart srcStart rows columns elementWidth).foldl (fun s pair =>
      let (g, adj) := takeAdj s.adj pair.1
      passOn { s with adj } pair.1 g [pair.2] [(pair.2, g)]) s
  | .tensorFill dstStart valueStart count _ =>
    (List.range count).foldl (fun s element =>
      let dst := registerAt dstStart element
      let (g, adj) := takeAdj s.adj dst
      passOn { s with adj } dst g [valueStart] [(valueStart, g)]) s
  | .tensorIdentity dstStart size _ =>
    (List.range (size * size)).foldl (fun s index =>
      let dst := registerAt dstStart index
      { s with untaken := Function.update s.untaken dst false, adj := (takeAdj s.adj dst).2 }) s
  | _ => s

/-- The contributions of `reverse_linear_solve_component`. -/
def linearSolveContributions (tape : Reg → K) (matrixStart rhsStart : Reg) (n component : Nat) (dstAdj : K) :
    Except EvalSolveError (List (Reg × K)) :=
  if n = 0 ∨ n ≤ component ∨ dstAdj = 0 then .ok []
  else do
    let x ← solveLinearSystem (fun k => tape (matrixStart + k)) (fun k => tape (rhsStart + k)) n
    match gaussianEliminate (.ofEntries n fun i j =>
        if j = n then if i = component then dstAdj else 0 else tape (matrixStart + (j * n + i))) with
    | none => .error (unsupported "singular matrix in reverse-mode linear-solve VJP (Aᵀ not invertible)")
    | some transposed =>
      .ok ((List.range n).flatMap fun i =>
        let mu := transposed.get i n
        (rhsStart + i, mu) :: x.zipIdx.map fun xj => (matrixStart + (i * n + xj.2), -mu * xj.1))

/-- One operation of `reverse_row_adjoints`. -/
def reverseOp (tape : Reg → K) (s : Adjoints K) (op : LinearOp K) : Except EvalSolveError (Adjoints K) :=
  match op with
  | .storeOutput _ => .ok s
  | .storeOutputRange .. => .ok s
  | .const dst _ => .ok { s with adj := (takeAdj s.adj dst).2 }
  | .loadTime dst => .ok { s with adj := (takeAdj s.adj dst).2 }
  | .compare dst .. => .ok { s with adj := (takeAdj s.adj dst).2 }
  | .loadY dst index =>
    let (g, adj) := takeAdj s.adj dst
    .ok { s with adj, cot := { s.cot with y := accumulate s.cot.y index g } }
  | .loadP dst index =>
    let (g, adj) := takeAdj s.adj dst
    .ok { s with adj, cot := { s.cot with p := accumulate s.cot.p index g } }
  | .loadIndexedP dst base count index =>
    let slot := resolveIndexedSlot E (tape index) base count
    let (g, adj) := takeAdj s.adj dst
    .ok { s with adj, cot := { s.cot with p := accumulate s.cot.p slot g } }
  | .loadSeed dst index =>
    let (g, adj) := takeAdj s.adj dst
    .ok { s with adj, cot := { s.cot with seed := accumulate s.cot.seed index g } }
  | .move dst src =>
    let (g, adj) := takeAdj s.adj dst
    .ok (passOn { s with adj } dst g [src] [(src, g)])
  | .unary dst op arg =>
    let (g, adj) := takeAdj s.adj dst
    .ok (passOn { s with adj } dst g [arg] [(arg, g * unaryDerivative E op (tape arg))])
  | .binary dst op lhs rhs =>
    let (g, adj) := takeAdj s.adj dst
    let (dl, dr) := binaryPartials E op (tape lhs) (tape rhs)
    .ok (passOn { s with adj } dst g [lhs, rhs] [(lhs, g * dl), (rhs, g * dr)])
  | .select dst cond ifTrue ifFalse =>
    let (g, adj) := takeAdj s.adj dst
    let (taken, unselected) := if tape cond ≠ 0 then (ifTrue, ifFalse) else (ifFalse, ifTrue)
    .ok { s with adj := addAdj adj taken g, untaken := Function.update s.untaken unselected true }
  | .linearSolveComponent dst matrixStart rhsStart n component => do
    let (g, adj) := takeAdj s.adj dst
    let contributions ← linearSolveContributions tape matrixStart rhsStart n component g
    pure { s with adj := contributions.foldl (fun adj c => addAdj adj c.1 c.2) adj }
  | op =>
    if tensorSupported op then .ok (reverseTensor E tape s op)
    else .error (unsupportedReverseOp op)

def reverseRowAdjoints (tape : Reg → K) (row : List (LinearOp K)) (s : Adjoints K) :
    Except EvalSolveError (Adjoints K) :=
  row.reverse.foldlM (reverseOp E tape) s

/-! ## A block of rows -/

/-- A row and its register count. -/
structure ReverseRow (K : Type) where
  ops : List (LinearOp K)
  registers : Nat

omit [Field K] [LinearOrder K] in
/-- The registers that an operation stores as outputs, in order. -/
def storedOutputRegisters : LinearOp K → List Reg
  | .storeOutput src => [src]
  | .storeOutputRange start count stride => (List.range count).map fun k => registerAt start (k * stride)
  | _ => []

/-- `seed_row_output_adjoints`; the block has an output index and a cotangent for every stored output. -/
def seedRowOutputAdjoints (row : List (LinearOp K)) (outputIndices : List Nat) (ordinal : Nat)
    (outputCotangents : List K) (adj : Reg → K) : Nat × (Reg → K) :=
  (row.flatMap storedOutputRegisters).foldl (fun s src =>
    (s.1 + 1, addAdj s.2 src (outputCotangents.getD (outputIndices.getD s.1 0) 0))) (ordinal, adj)

/-- `ReverseScratch::prepare`: slots past the count are dropped, and read as zero when it grows again. -/
def ReverseScratch.prepare (scratch : ReverseScratch K) (registerCount : Nat) : ReverseScratch K where
  regs r := if r < registerCount then scratch.regs r else 0
  adj r := if r < registerCount then scratch.adj r else 0
  untaken _ := false

structure RowInputRequirements where
  yLen : Nat
  pLen : Nat
  seedLen : Nat

def validateInputLen (vector : String) (actualLen requiredLen : Nat) : Except EvalSolveError Unit :=
  if requiredLen ≤ actualLen then .ok () else .error (.missingInput vector (requiredLen - 1) actualLen)

omit [Field K] [LinearOrder K] in
def validateInputRequirements (requirements : RowInputRequirements) (inputs : ReverseInputs K) :
    Except EvalSolveError Unit := do
  validateInputLen "y" inputs.y.length requirements.yLen
  validateInputLen "p" inputs.p.length requirements.pLen
  if requirements.seedLen = 0 then pure ()
  else validateInputLen "seed" (inputs.seed.elim 0 List.length) requirements.seedLen

/-- A row of `reverse_scalar_block_vjp`, from the next output ordinal, the scratch and the cotangents. -/
def reverseRow (inputs : ReverseInputs K) (outputIndices : List Nat) (outputCotangents : List K)
    (s : Nat × ReverseScratch K × ReverseCotangents K) (row : ReverseRow K) :
    Except EvalSolveError (Nat × ReverseScratch K × ReverseCotangents K) := do
  let scratch := s.2.1.prepare row.registers
  let tape ← forwardRowTape E inputs row.ops scratch.regs
  let seeded := seedRowOutputAdjoints row.ops outputIndices s.1 outputCotangents scratch.adj
  let swept ← reverseRowAdjoints E tape row.ops ⟨seeded.2, scratch.untaken, s.2.2⟩
  pure (seeded.1, ⟨tape, swept.adj, swept.untaken⟩, swept.cot)

def reverseScalarBlockVjp (rows : List (ReverseRow K)) (outputIndices : List Nat) (outputCount : Nat)
    (requirements : RowInputRequirements) (inputs : ReverseInputs K) (outputCotangents : List K)
    (cot : ReverseCotangents K) (scratch : ReverseScratch K) : Except EvalSolveError (ReverseCotangents K) := do
  validateInputRequirements requirements inputs
  if outputCotangents.length < outputCount then .error (.outputTooSmall outputCount outputCotangents.length)
  else
    let swept ← rows.foldlM (reverseRow E inputs outputIndices outputCotangents) (0, scratch, cot)
    pure swept.2.2

end

end Rumoca.Eval
