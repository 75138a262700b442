import Mathlib.Algebra.Order.Field.Basic
import Rumoca.Solve.LinearOp
/-!
# Exact arithmetic of scalar operations

The value of each scalar operation and its local partials, over an ordered
field with given elementary functions. A quotient by zero is zero, which is
also what the kink rules make of a partial that is not finite.
-/

namespace Rumoca.Eval

open Solve

/-- The functions of `f64` that a field does not have. -/
structure Elementary (K : Type) where
  sqrt : K → K
  floor : K → K
  ceil : K → K
  trunc : K → K
  round : K → K
  sin : K → K
  cos : K → K
  tan : K → K
  asin : K → K
  acos : K → K
  atan : K → K
  sinh : K → K
  cosh : K → K
  tanh : K → K
  exp : K → K
  ln : K → K
  log10 : K → K
  powf : K → K → K
  atan2 : K → K → K
  ln10 : K
  toUsize : K → Nat

inductive EvalSolveError where
  | invalidRow (message : String)
  | linearSolve (size : Nat) (component : Option Nat) (reason : String)
  | missingInput (vector : String) (index len : Nat)
  | outputTooSmall (required len : Nat)
  | registerOutOfBounds (access : String) (register len : Nat)
  | scalarization (message : String)
  | uninitializedRegister (register : Nat)
deriving DecidableEq, Repr

section
variable {K : Type} [Field K] [LinearOrder K] (E : Elementary K)

local instance atLeastTwo_two : Nat.AtLeastTwo 2 := ⟨le_rfl⟩

/-! ## Values -/

def ofBool (b : Bool) : K := if b then 1 else 0

def modelicaSign (value : K) : K := if 0 < value then 1 else if value < 0 then -1 else 0

def realExtremum (lhs rhs : K) (minimum : Bool) : K :=
  if (minimum ∧ lhs < rhs) ∨ (¬ minimum ∧ rhs < lhs) then lhs else rhs

def evalUnary (op : UnaryOp) (value : K) : K :=
  match op with
  | .neg => -value
  | .not => ofBool (value = 0)
  | .abs => |value|
  | .sign => modelicaSign value
  | .sqrt => E.sqrt value
  | .floor => E.floor value
  | .ceil => E.ceil value
  | .trunc => E.trunc value
  | .sin => E.sin value
  | .cos => E.cos value
  | .tan => E.tan value
  | .asin => E.asin value
  | .acos => E.acos value
  | .atan => E.atan value
  | .sinh => E.sinh value
  | .cosh => E.cosh value
  | .tanh => E.tanh value
  | .exp => E.exp value
  | .log => E.ln value
  | .log10 => E.log10 value

def evalBinary (op : BinaryOp) (lhs rhs : K) : K :=
  match op with
  | .add => lhs + rhs
  | .sub => lhs - rhs
  | .mul => lhs * rhs
  | .div => lhs / rhs
  | .pow => E.powf lhs rhs
  | .and => ofBool (lhs ≠ 0 ∧ rhs ≠ 0)
  | .or => ofBool (lhs ≠ 0 ∨ rhs ≠ 0)
  | .atan2 => E.atan2 lhs rhs
  | .min => realExtremum lhs rhs true
  | .max => realExtremum lhs rhs false

omit [Field K] in
def compare (op : CompareOp) (lhs rhs : K) : Bool :=
  match op with
  | .lt => lhs < rhs
  | .le => lhs ≤ rhs
  | .gt => rhs < lhs
  | .ge => rhs ≤ lhs
  | .eq => lhs = rhs
  | .ne => lhs ≠ rhs

def evalCompare (op : CompareOp) (lhs rhs : K) : K := ofBool (compare op lhs rhs)

def resolveIndexedSlot (indexValue : K) (base count : Nat) : Nat :=
  if count = 0 then base
  else
    let rounded := E.round indexValue
    let clamped :=
      if rounded < 0 then 0
      else if count ≤ E.toUsize rounded then count - 1
      else E.toUsize rounded
    base + clamped

/-! ## Partials -/

def guarded (value : K) : K := value

def unaryDerivative (op : UnaryOp) (x : K) : K :=
  match op with
  | .neg => -1
  | .abs => if 0 ≤ x then 1 else -1
  | .sqrt => guarded (1 / 2 / E.sqrt x)
  | .sin => E.cos x
  | .cos => -E.sin x
  | .tan =>
    let c := E.cos x
    1 / (c * c)
  | .asin => guarded (1 / E.sqrt (1 - x * x))
  | .acos => guarded (-1 / E.sqrt (1 - x * x))
  | .atan => 1 / (1 + x * x)
  | .sinh => E.cosh x
  | .cosh => E.sinh x
  | .tanh =>
    let c := E.cosh x
    1 / (c * c)
  | .exp => E.exp x
  | .log => guarded (1 / x)
  | .log10 => guarded (1 / (x * E.ln10))
  | .sign | .floor | .ceil | .trunc | .not => 0

def binaryPartials (op : BinaryOp) (lhs rhs : K) : K × K :=
  match op with
  | .add => (1, 1)
  | .sub => (1, -1)
  | .mul => (rhs, lhs)
  | .div => (guarded (1 / rhs), guarded (-lhs / (rhs * rhs)))
  | .pow =>
    let dl := guarded (rhs * E.powf lhs (rhs - 1))
    let dr := if 0 < lhs then guarded (E.powf lhs rhs * E.ln lhs) else 0
    (dl, dr)
  | .atan2 =>
    let denom := lhs * lhs + rhs * rhs
    (guarded (rhs / denom), guarded (-lhs / denom))
  | .min => if lhs ≤ rhs then (1, 0) else (0, 1)
  | .max => if rhs ≤ lhs then (1, 0) else (0, 1)
  | .and | .or => (0, 0)

def partialIsConstant : UnaryOp → Bool
  | .neg | .sign | .floor | .ceil | .trunc | .not => true
  | _ => false

theorem unaryDerivative_congr {op : UnaryOp} {x x' : K} (h : partialIsConstant op = false → x = x') :
    unaryDerivative E op x = unaryDerivative E op x' := by
  cases hc : partialIsConstant op with
  | false => rw [h hc]
  | true => cases op <;> simp only [partialIsConstant, Bool.false_eq_true] at hc <;> rfl

/-! ## Linear systems -/

/-- An augmented matrix `[A | b]` of `n` rows. -/
structure AugmentedMatrix (K : Type) where
  n : Nat
  get : Nat → Nat → K

namespace AugmentedMatrix

omit [LinearOrder K] in
/-- A matrix of zeros with its entries set. -/
def ofEntries (n : Nat) (entry : Nat → Nat → K) : AugmentedMatrix K :=
  ⟨n, fun row col => if row < n ∧ col ≤ n then entry row col else 0⟩

omit [LinearOrder K] in
theorem ofEntries_congr {n : Nat} {entry entry' : Nat → Nat → K}
    (h : ∀ row < n, ∀ col ≤ n, entry row col = entry' row col) : ofEntries n entry = ofEntries n entry' := by
  unfold ofEntries
  congr 1
  funext row col
  split
  · next hin => exact h row hin.1 col hin.2
  · rfl

def swapRows (m : AugmentedMatrix K) (lhs rhs : Nat) : AugmentedMatrix K :=
  { m with get := fun row col => m.get (Equiv.swap lhs rhs row) col }

def normalizePivotRow (m : AugmentedMatrix K) (col : Nat) : AugmentedMatrix K :=
  { m with get := fun row c => if row = col ∧ col ≤ c then m.get row c / m.get col col else m.get row c }

def eliminateColumn (m : AugmentedMatrix K) (col : Nat) : AugmentedMatrix K :=
  { m with
    get := fun row c => if row ≠ col ∧ col ≤ c then m.get row c - m.get row col * m.get col c else m.get row c }

/-- The row of `col..n` with the largest entry in `col`, the last of several. -/
def pivot (m : AugmentedMatrix K) (col : Nat) : Nat :=
  (List.range' (col + 1) (m.n - (col + 1))).foldl
    (fun best row => if |m.get best col| ≤ |m.get row col| then row else best) col

end AugmentedMatrix

/-- One column of `gaussian_eliminate`. -/
def eliminateStep (m : AugmentedMatrix K) (col : Nat) : Option (AugmentedMatrix K) :=
  let pivot := m.pivot col
  if m.get pivot col = 0 then none
  else some (((m.swapRows col pivot).normalizePivotRow col).eliminateColumn col)

/-- Gaussian elimination with partial pivoting; `none` when the matrix is singular. -/
def gaussianEliminate (m : AugmentedMatrix K) : Option (AugmentedMatrix K) := (List.range m.n).foldlM eliminateStep m

omit [Field K] [LinearOrder K] in
/-- An entry of a matrix of `columns` columns lies within it. -/
theorem entry_lt {rows columns row col : Nat} (hrow : row < rows) (hcol : col < columns) :
    row * columns + col < rows * columns := by
  calc row * columns + col < row * columns + columns := Nat.add_lt_add_left hcol _
    _ = (row + 1) * columns := (Nat.succ_mul _ _).symm
    _ ≤ rows * columns := Nat.mul_le_mul_right _ hrow

/-- Solve `A x = b` from the entries of `A` in rows, then `b`. -/
def solveLinearSystem (matrix : Nat → K) (rhs : Nat → K) (n : Nat) : Except EvalSolveError (List K) :=
  if n = 0 then .ok []
  else
    match gaussianEliminate (.ofEntries n fun row col => if col = n then rhs row else matrix (row * n + col)) with
    | none => .error (.linearSolve n none "singular matrix")
    | some solved => .ok ((List.range n).map fun component => solved.get component n)

theorem solveLinearSystem_congr {matrix matrix' rhs rhs' : Nat → K} {n : Nat} (h : ∀ k < n * n, matrix k = matrix' k)
    (hrhs : ∀ k < n, rhs k = rhs' k) : solveLinearSystem matrix rhs n = solveLinearSystem matrix' rhs' n := by
  unfold solveLinearSystem
  rw [AugmentedMatrix.ofEntries_congr]
  intro row hrow col hcol
  split
  · exact hrhs row hrow
  · next hne => exact h _ (entry_lt hrow (lt_of_le_of_ne hcol hne))

end

end Rumoca.Eval
