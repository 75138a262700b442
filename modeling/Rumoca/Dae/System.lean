import Rumoca.Dae.Expression
/-!
# The checked DAE and its solutions

The declarations, functions and continuous equations of a DAE, and what it is
for a trajectory to satisfy the equations. An equation is a residual expression,
or a family of residuals over an index domain.
-/

namespace Rumoca.Dae

/-! ## Index domains -/

structure StructuredIndexBinder where
  lower : Int
  upper : Int
  step : Int
deriving DecidableEq, Repr

namespace StructuredIndexBinder

def valueCount (b : StructuredIndexBinder) : Nat :=
  if 0 < b.step then
    if b.upper < b.lower then 0 else ((b.upper - b.lower) / b.step + 1).toNat
  else if b.step < 0 then
    if b.lower < b.upper then 0 else ((b.lower - b.upper) / (-b.step) + 1).toNat
  else 0

def valueAt (b : StructuredIndexBinder) (position : Nat) : Int := b.lower + b.step * position

def values (b : StructuredIndexBinder) : List Int := (List.range b.valueCount).map b.valueAt

end StructuredIndexBinder

structure StructuredIndexDomain where
  binders : List StructuredIndexBinder
deriving DecidableEq, Repr

namespace StructuredIndexDomain

def extents (d : StructuredIndexDomain) : List Nat := d.binders.map (·.valueCount)

/-- The index tuples in row-major order, the innermost binder varying fastest. -/
def indexTuples (d : StructuredIndexDomain) : List (List Int) :=
  d.binders.foldr (fun b tuples => b.values.flatMap fun v => tuples.map (v :: ·)) [[]]

end StructuredIndexDomain

/-! ## Declarations, functions and equations -/

inductive VariableRole where
  | parameter | constant | input | state | algebraic | output | discreteReal | discreteValue
deriving DecidableEq, Repr

inductive StateSelect where
  | default | never | avoid | prefer | always
deriving DecidableEq, Repr

inductive ScalarType where
  | real | integer | boolean | enumeration | string | record
deriving DecidableEq, Repr

structure DaeVariable where
  role : VariableRole
  stateSelect : StateSelect
  scalarType : ScalarType
  dimensions : List Nat
  fixed : Option (List Bool)
deriving DecidableEq, Repr

def DaeVariable.scalarCount (v : DaeVariable) : Nat := v.dimensions.prod

/-- An expression by its identity in the model, with the tree that it names. -/
structure ExprId where
  index : Nat
  expression : Expr

structure FunctionDefinition where
  target : Nat
  rhs : ExprId

/-- The statements of a function body, down to the expressions they evaluate. -/
inductive FunctionStatement where
  | requireAssigned (definition : FunctionDefinition)
  | conditional (conditions : List Expr) (branches : List (List FunctionStatement)) (fallback : List FunctionStatement)
  | assignment (definition : FunctionDefinition)
  | assignmentGroup (definitions : List FunctionDefinition)
  | assertion (condition message : Expr)
  | forLoop (statements : List FunctionStatement)

inductive ExternalArgument where
  | input (expression : Expr)
  | output (value : Nat)

structure ExternalFunction where
  isPure : Bool
  arguments : List ExternalArgument

structure DaeFunction where
  definitions : List FunctionDefinition
  /-- The definition that each output has at the end of the body. -/
  resultValues : List FunctionDefinition
  statements : List FunctionStatement
  external : Option ExternalFunction

/-- How a domain point derives its scalar body from the body of a family. -/
inductive ComprehensionScalarView where
  | binderSubstitution
  | rowMajorProjection
  | binderPrefixProjection (binderCount : Nat)
deriving DecidableEq, Repr

/-- The scalar of the body that the family's point `point` takes. -/
def ComprehensionScalarView.bodyScalar (point : Nat) (extents : List Nat) : ComprehensionScalarView → Option Nat
  | .binderSubstitution => some 0
  | .rowMajorProjection => some point
  | .binderPrefixProjection binderCount =>
    let count := (extents.drop binderCount).prod
    if 0 < count then some (point % count) else none

structure StructuredFamily where
  domain : Nat
  scalarView : ComprehensionScalarView
  bodies : List ExprId

inductive ContinuousOwner where
  | residual (residual : ExprId)
  | structured (family : StructuredFamily)

def ContinuousOwner.bodies : ContinuousOwner → List ExprId
  | .residual body => [body]
  | .structured family => family.bodies

structure DaeView where
  domains : List StructuredIndexDomain
  vars : List DaeVariable
  functions : List DaeFunction
  /-- Every expression of the model, by its index. -/
  expressions : List Expr
  continuousOwners : List ContinuousOwner

namespace DaeView

def domain (view : DaeView) (id : Nat) : StructuredIndexDomain := view.domains.getD id ⟨[]⟩

def points (view : DaeView) (id : Nat) : List (List Int) := (view.domain id).indexTuples

def extents (view : DaeView) (id : Nat) : List Nat := (view.domain id).extents

def singleAssignmentResult (view : DaeView) (function output : Nat) : Option Expr := do
  let function ← view.functions[function]?
  if function.external.isSome then none else do
    let result ← function.resultValues[output]?
    match function.statements with
    | [.assignment definition] =>
      if definition.target ≠ result.target || definition.rhs.index ≠ result.rhs.index then none
      else some result.rhs.expression
    | _ => none

end DaeView

/-! ## Solutions -/

section Solutions

variable {R : Type} [CommRing R] [Algebra ℚ R]

def DaeView.eval (view : DaeView) (ops : Operations R) (env : Env R) (e : Expr) : Option (Value R) :=
  e.eval ops view.points view.extents env

theorem DaeView.eval_plus (view : DaeView) (ops : Operations R) (env : Env R) (a : Expr) :
    view.eval ops env (.unary .plus a) = view.eval ops env a := by
  simp only [DaeView.eval, Expr.eval]

def ResidualHolds (view : DaeView) (ops : Operations R) (env : Env R) (residual : Expr) : Prop :=
  ∃ dims entries, view.eval ops env residual = some (.tensor dims entries) ∧ ∀ r ∈ entries, r = 0

/-- At each point of the domain, each body's scalar for that point is zero. -/
def FamilyHolds (view : DaeView) (ops : Operations R) (env : Env R) (family : StructuredFamily) : Prop :=
  ∀ (point : Nat) tuple, (view.points family.domain)[point]? = some tuple → ∀ body ∈ family.bodies,
    ∃ v k, view.eval ops (env.bind family.domain tuple) body.expression = some v ∧
      family.scalarView.bodyScalar point (view.extents family.domain) = some k ∧ v.entryAt k = some 0

def OwnerHolds (view : DaeView) (ops : Operations R) (env : Env R) : ContinuousOwner → Prop
  | .residual residual => ResidualHolds view ops env residual.expression
  | .structured family => FamilyHolds view ops env family

/-- The continuous variables have values, of their declared shapes. -/
structure ContinuousTyped (view : DaeView) (env : Env R) : Prop where
  defined : ∀ (id : Nat) var, view.vars[id]? = some var →
    var.role = .state ∨ var.role = .algebraic ∨ var.role = .output → (env.continuous id).isSome
  shape : ∀ (id : Nat) var v, view.vars[id]? = some var → env.continuous id = some v →
    ∃ entries : List R, v = .tensor var.dimensions entries ∧ entries.length = var.scalarCount

omit [CommRing R] [Algebra ℚ R] in
theorem ContinuousTyped.algebraic {view : DaeView} {env : Env R} (h : ContinuousTyped view env) {id : Nat}
    {var : DaeVariable} (hvar : view.vars[id]? = some var) (hrole : var.role = .algebraic) :
    ∃ entries : List R, env.continuous id = some (.tensor var.dimensions entries) ∧ entries.length = var.scalarCount := by
  obtain ⟨v, hv⟩ := Option.isSome_iff_exists.1 (h.defined id var hvar (.inr (.inl hrole)))
  obtain ⟨entries, rfl, hlen⟩ := h.shape id var v hvar hv
  exact ⟨entries, hv, hlen⟩

end Solutions

/-! ## Trajectories -/

/-- What expressions read over time, with the parameters fixed. -/
structure Trajectory (T R : Type) where
  continuous : T → Nat → Option (Value R)
  coordinate : T → Coordinate → Option (Value R)
  call : T → Nat → Nat → List (Value R) → Option (Value R)
  bodyValue : T → Expr → Option (Value R)
  parameter_fixed : ∀ t t' id, coordinate t (.parameter id) = coordinate t' (.parameter id)

namespace Trajectory

variable {T R : Type} (traj : Trajectory T R)

/-- What expressions read at time `t`, with the given binder values. -/
def env (t : T) (binder : Nat → Nat → Int) : Env R where
  continuous := traj.continuous t
  coordinate := traj.coordinate t
  binder := binder
  call := traj.call t
  bodyValue := traj.bodyValue t

def closed (t : T) : Env R := traj.env t fun _ _ => 0

def element (t : T) (id scalar : Nat) : Option R := (traj.continuous t id).bind (·.entryAt scalar)

end Trajectory

end Rumoca.Dae
