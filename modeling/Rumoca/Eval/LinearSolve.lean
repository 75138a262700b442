import Rumoca.Eval.Arithmetic
import Rumoca.Eval.GaussianElimination
import Rumoca.Solve.StructuralPattern
/-!
# Linear solves of the interpreter

One component of a solution, or all of them with the kernel that the pattern
of the matrix selects. The matrix and the right-hand side are registers, row
by row. Numbers are exact, so every value is finite.
-/

namespace Rumoca.Eval

open Solve

/-! ## The kernel -/

inductive LinearSolveKernel where
  | Diagonal
  | SmallDense
  | Dense
  | SparseCandidate
deriving DecidableEq, Repr

inductive TensorPolicyError where
  | ShapeProductOverflow (context : String) (lhs rhs : Nat)
deriving DecidableEq, Repr

def diagonalLinearSolveLimit : Nat := 64

def smallDenseLinearSolveLimit : Nat := 16

def sparseDensityLimit : ℚ := 1 / 5

def checkedPolicyProduct (lhs rhs : Nat) (context : String) : Except TensorPolicyError Nat :=
  match checkedUsize (lhs * rhs) with
  | some product => .ok product
  | none => .error (.ShapeProductOverflow context lhs rhs)

def isSparse (total : Nat) (matrixPattern : StructuralPattern) : Bool :=
  matrixPattern.nonzeroUpperBound.any fun nonzeros => decide ((nonzeros : ℚ) / (total : ℚ) ≤ sparseDensityLimit)

def selectLinearSolveKernel (n : Nat) (matrixPattern : StructuralPattern) : Except TensorPolicyError LinearSolveKernel :=
  if matrixPattern.viewsDiagonal = true ∧ n ≤ diagonalLinearSolveLimit then .ok .Diagonal
  else if n ≤ smallDenseLinearSolveLimit then .ok .SmallDense
  else
    match checkedPolicyProduct n n "linear solve" with
    | .error error => .error error
    | .ok total => if 0 < total ∧ isSparse total matrixPattern = true then .ok .SparseCandidate else .ok .Dense

/-! ## Registers -/

/-- A panic (`none`), an error, or a result. -/
abbrev EvalResult := ExceptT EvalSolveError Option

def index {α : Type} (values : List α) (i : Nat) : EvalResult α :=
  match values[i]? with
  | some value => pure value
  | none => ExceptT.mk none

def linearSolveError (size : Nat) (component : Option Nat) (reason : String) : EvalSolveError :=
  .linearSolve size component reason

def validateComponent (n component : Nat) : EvalResult Unit :=
  if n = 0 then throw (linearSolveError n (some component) "empty system")
  else if n ≤ component then throw (linearSolveError n (some component) "component is outside the solution vector")
  else pure ()

def checkedMatrixOffset (row n col : Nat) : EvalResult Nat :=
  match checkedUsize (row * n) with
  | none => throw (.scalarization s!"linear solve matrix row offset {row} * {n} overflows")
  | some rowStart =>
    match checkedUsize (rowStart + col) with
    | none => throw (.scalarization s!"linear solve matrix offset {rowStart} + {col} overflows")
    | some offset => pure offset

def checkedRegisterAtOffset (start offset len : Nat) : EvalResult Nat :=
  match checkedU32 offset with
  | none => throw (.registerOutOfBounds "read" (u32Limit - 1) len)
  | some offset =>
    match checkedU32 (start + offset) with
    | none => throw (.registerOutOfBounds "read" (u32Limit - 1) len)
    | some register => pure register

/-- `start` and `offset` as a register, saturating. -/
def registerAtOffsetForError (start offset : Nat) : Nat := min (start + offset) (u32Limit - 1)

def checkedRegisterIndexAtOffset (start offset len : Nat) : EvalResult Nat :=
  match checkedUsize (start + offset) with
  | none => throw (.registerOutOfBounds "read" (u32Limit - 1) len)
  | some index =>
    if index < len then pure index else throw (.registerOutOfBounds "read" (registerAtOffsetForError start offset) len)

def rangeEndRegister (start len : Nat) : Nat := min (start + (len - 1)) (u32Limit - 1)

def ensureRegisterRange (registers : Nat) (access : String) (start len : Nat) : EvalResult Unit :=
  match checkedUsize (start + len) with
  | none => throw (.registerOutOfBounds access (rangeEndRegister start len) (usizeLimit - 1))
  | some stop =>
    if stop ≤ registers then pure () else throw (.registerOutOfBounds access (rangeEndRegister start len) registers)

/-! ## The solvers -/

variable {F : Type}

/-- `get` of an initialized register. -/
def getReg (regs : List F) (initialized : List Bool) (register : Nat) : EvalResult F :=
  match regs[register]? with
  | none => throw (.registerOutOfBounds "read" register regs.length)
  | some value => if initialized.getD register false = true then pure value else throw (.uninitializedRegister register)

variable [Field F] [LinearOrder F]

namespace AugmentedMatrix

def zeroed (n : Nat) : EvalResult (AugmentedMatrix F) :=
  match checkedUsize (n + 1) with
  | none => throw (.scalarization s!"linear solve augmented matrix stride {n} + 1 overflows")
  | some stride =>
    match checkedUsize (n * stride) with
    | none => throw (.scalarization s!"linear solve augmented matrix shape product {n} * {stride} overflows")
    | some _ => pure { n := n, get := fun _ _ => 0 }

def setRow (cols : List Nat) (entry : Nat → EvalResult F) (rhs : EvalResult F) (matrix : AugmentedMatrix F) (row : Nat) :
    EvalResult (AugmentedMatrix F) := do
  let matrix ← cols.foldlM (fun matrix col => do
    let value ← entry col
    return matrix.set row col value) matrix
  let value ← rhs
  return matrix.set row matrix.n value

end AugmentedMatrix

def buildAugmentedMatrix (regs : List F) (initialized : List Bool) (matrixStart rhsStart n : Nat) :
    EvalResult (AugmentedMatrix F) := do
  let matrix ← AugmentedMatrix.zeroed n
  (List.range n).foldlM (fun matrix row => matrix.setRow (List.range n)
    (fun col => do
      let offset ← checkedMatrixOffset row n col
      let register ← checkedRegisterAtOffset matrixStart offset regs.length
      getReg regs initialized register)
    (do
      let register ← checkedRegisterAtOffset rhsStart row regs.length
      getReg regs initialized register) row) matrix

def buildAugmentedMatrixUnchecked (regs : List F) (matrixStart rhsStart n : Nat) : EvalResult (AugmentedMatrix F) := do
  let matrix ← AugmentedMatrix.zeroed n
  (List.range n).foldlM (fun matrix row => matrix.setRow (List.range n)
    (fun col => do
      let offset ← checkedMatrixOffset row n col
      let i ← checkedRegisterIndexAtOffset matrixStart offset regs.length
      index regs i)
    (do
      let i ← checkedRegisterIndexAtOffset rhsStart row regs.length
      index regs i) row) matrix

def solveComponent (regs : List F) (initialized : List Bool) (matrixStart rhsStart n component : Nat) : EvalResult F := do
  validateComponent n component
  let matrix ← buildAugmentedMatrix regs initialized matrixStart rhsStart n
  match matrix.gaussianEliminateInPlace with
  | none => throw (linearSolveError n (some component) "singular matrix")
  | some reduced => pure (reduced.solutionComponent component)

def eliminateInto (matrix : AugmentedMatrix F) (n : Nat) (out : List F) : EvalResult (List F) :=
  match matrix.gaussianEliminateInPlace with
  | none => throw (linearSolveError n none "singular matrix")
  | some reduced =>
    pure ((List.range (min n out.length)).foldl (fun out component => out.set component (reduced.solutionComponent component)) out)

def solveSparseUnchecked (regs : List F) (matrixStart rhsStart n : Nat) (pattern : StructuralPattern) (out : List F) :
    EvalResult (List F) := do
  if pattern.rows ≠ n ∨ pattern.columns ≠ n then
    throw (linearSolveError n none "sparse pattern shape does not match matrix")
  let matrix ← AugmentedMatrix.zeroed n
  let matrix ← (List.range n).foldlM (fun matrix row => do
    let columns ← ExceptT.mk ((pattern.visitRowColumns row).map .ok)
    matrix.setRow columns (fun column => index regs (matrixStart + (row * n + column))) (index regs (rhsStart + row)) row)
    matrix
  eliminateInto matrix n out

def divideByDiagonal (regs : List F) (matrixStart rhsStart n : Nat) (out : List F) (component : Nat) :
    EvalResult (List F) := do
  let coeff ← index regs (matrixStart + component * n + component)
  if coeff = 0 then throw (linearSolveError n (some component) "singular diagonal")
  let rhs ← index regs (rhsStart + component)
  return out.set component (rhs / coeff)

def solveDiagonalUnchecked (regs : List F) (matrixStart rhsStart n : Nat) (out : List F) : EvalResult (List F) :=
  (List.range (min n out.length)).foldlM (divideByDiagonal regs matrixStart rhsStart n) out

/-- The solution in the first `n` places of the output. -/
def solveAllUnchecked (regs : List F) (matrixStart rhsStart n : Nat) (kernel : LinearSolveKernel)
    (matrixPattern : Option StructuralPattern) (out : List F) : EvalResult (List F) := do
  if n = 0 then return out
  if out.length < n then throw (.outputTooSmall n out.length)
  match checkedUsize (n * n) with
  | none => throw (.scalarization s!"linear solve matrix shape product {n} * {n} overflows register range")
  | some matrixLen =>
    ensureRegisterRange regs.length "read" matrixStart matrixLen
    ensureRegisterRange regs.length "read" rhsStart n
    match kernel with
    | .Diagonal => solveDiagonalUnchecked regs matrixStart rhsStart n out
    | .SparseCandidate =>
      match matrixPattern with
      | none => throw (linearSolveError n none "sparse kernel requires structural pattern")
      | some pattern => solveSparseUnchecked regs matrixStart rhsStart n pattern out
    | .SmallDense | .Dense => do
      let matrix ← buildAugmentedMatrixUnchecked regs matrixStart rhsStart n
      eliminateInto matrix n out

end Rumoca.Eval
