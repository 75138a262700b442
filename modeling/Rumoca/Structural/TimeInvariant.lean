import Rumoca.Lib.Entries
import Rumoca.Lib.Flags
import Rumoca.Structural.ResidualNormalization
/-!
# Time invariance

The algebraic variables whose definitions resolve to parameters and constants,
and the functions whose calls are functions of their arguments. A definition is
a causal definition of the whole variable, one for each of its scalars, or the
value of one structured family `target[binders] = value`.
-/

namespace Rumoca.DaeTransform

open Rumoca.Dae Rumoca.Lib

/-! ## Definitions -/

/-- The causal definitions proved for the model: of whole variables, and of the
scalars of a variable that has one for each. -/
structure CausalDefinitions where
  definitions : Nat → Option Expr
  scalarDefinitions : Nat → Nat → Option Expr
  fullyScalarDefined : Nat → Bool

def familyDomainBinder (family : StructuredFamily) : Subscript → Bool
  | .index (.coordinate (.binder domain _)) => domain == family.domain
  | _ => false

def familyIndexedTarget (view : DaeView) (family : StructuredFamily) : Expr → Option Nat
  | .index (.coordinate (.algebraic target)) subscripts => do
    let var ← view.vars[target]?
    if subscripts.length ≠ var.dimensions.length then none
    else if subscripts.all (familyDomainBinder family) then some target else none
  | _ => none

/-- A family body of the shape `target[binders] = value`, as the target with its access, and the value. -/
def familyElementAccess (view : DaeView) (family : StructuredFamily) : Option (Nat × Expr × Expr) :=
  match family.bodies with
  | [body] => do
    let (lhs, rhs) ← equationSides none body.expression
    ((familyIndexedTarget view family lhs).map fun target => (target, lhs, rhs)).or
      ((familyIndexedTarget view family rhs).map fun target => (target, rhs, lhs))
  | _ => none

def familyElementDefinition (view : DaeView) (family : StructuredFamily) : Option (Nat × Expr) :=
  (familyElementAccess view family).map fun (target, _, value) => (target, value)

/-- The values recorded so far, and the targets with more than one definition. -/
structure FamilyValues where
  values : List (Nat × Expr)
  ambiguous : List Nat

def recordFamily (view : DaeView) (causal : CausalDefinitions) (s : FamilyValues) : ContinuousOwner → FamilyValues
  | .residual _ => s
  | .structured family =>
    match familyElementDefinition view family with
    | none => s
    | some (target, value) =>
      if (causal.definitions target).isSome || causal.fullyScalarDefined target then
        { s with ambiguous := target :: s.ambiguous }
      else
        { values := insertEntry s.values target value
          ambiguous := if (s.values.lookup target).isSome then target :: s.ambiguous else s.ambiguous }

/-- The value that each algebraic array receives from a single structured family. -/
def familyElementDefinitions (view : DaeView) (causal : CausalDefinitions) (target : Nat) : Option Expr :=
  let s := view.continuousOwners.foldl (recordFamily view causal) ⟨[], []⟩
  if target ∈ s.ambiguous then none else s.values.lookup target

/-! ## Pure functions -/

mutual

def statementRoots : FunctionStatement → List Expr
  | .conditional conditions branches fallback =>
    conditions ++ statementRootsOfBranches branches ++ statementRootsOfAll fallback
  | .requireAssigned definition => [definition.rhs.expression]
  | .assignment _ | .assignmentGroup _ => []
  | .assertion condition message => [condition, message]
  | .forLoop statements => statementRootsOfAll statements

def statementRootsOfAll : List FunctionStatement → List Expr
  | [] => []
  | s :: ss => statementRoots s ++ statementRootsOfAll ss

def statementRootsOfBranches : List (List FunctionStatement) → List Expr
  | [] => []
  | b :: bs => statementRootsOfAll b ++ statementRootsOfBranches bs

end

def ExternalArgument.input? : ExternalArgument → Option Expr
  | .input e => some e
  | .output _ => none

def calledFunction : Expr → Option Nat
  | .call function _ _ => some function
  | _ => none

def functionCallees (function : DaeFunction) : List Nat :=
  let roots := function.definitions.map (·.rhs.expression) ++ statementRootsOfAll function.statements ++
    match function.external with
    | some external => external.arguments.filterMap ExternalArgument.input?
    | none => []
  (roots.flatMap Expr.subexpressions).filterMap calledFunction

def declaredPure (function : DaeFunction) : Bool :=
  match function.external with
  | none => true
  | some external => external.isPure

def callsImpure (functions : List DaeFunction) (pure : List Bool) (index : Nat) : Bool :=
  match functions[index]? with
  | some function => (functionCallees function).any fun callee => !pure.getD callee false
  | none => false

def pureFunctions (view : DaeView) : List Bool :=
  settleFlags false (callsImpure view.functions) (view.functions.map declaredPure)

/-! ## Invariant expressions -/

structure InvarianceScope where
  algebraics : List Bool
  pureFunctions : List Bool

def coordinateIsTimeInvariant (algebraics : List Bool) : Coordinate → Bool
  | .parameter _ | .binder _ _ => true
  | .algebraic id => algebraics.getD id false
  | _ => false

mutual

/-- Whether an expression holds one value at every instant, given the variables already proved to. -/
def expressionIsTimeInvariant (scope : InvarianceScope) : Expr → Bool
  | .literal (.string _) => false
  | .literal _ => true
  | .coordinate c => coordinateIsTimeInvariant scope.algebraics c
  | .unary _ a | .field a _ => expressionIsTimeInvariant scope a
  | .binary _ a b => expressionIsTimeInvariant scope a && expressionIsTimeInvariant scope b
  | .conditional as | .array as | .record as | .builtin _ as => allTimeInvariant scope as
  | .call function _ as => scope.pureFunctions.getD function false && allTimeInvariant scope as
  | .comprehension _ body => expressionIsTimeInvariant scope body
  | .index a ss => expressionIsTimeInvariant scope a && subscriptsTimeInvariant scope ss
  | _ => false

def allTimeInvariant (scope : InvarianceScope) : List Expr → Bool
  | [] => true
  | a :: as => expressionIsTimeInvariant scope a && allTimeInvariant scope as

def subscriptsTimeInvariant (scope : InvarianceScope) : List Subscript → Bool
  | [] => true
  | .whole :: ss => subscriptsTimeInvariant scope ss
  | .index a :: ss | .slice a :: ss => expressionIsTimeInvariant scope a && subscriptsTimeInvariant scope ss

end

/-! ## The fixpoint -/

def variableIsTimeInvariant (view : DaeView) (causal : CausalDefinitions) (id : Nat) (var : DaeVariable)
    (scope : InvarianceScope) : Bool :=
  match causal.definitions id with
  | some definition => expressionIsTimeInvariant scope definition
  | none =>
    if 0 < var.scalarCount && causal.fullyScalarDefined id then
      (List.range var.scalarCount).all fun scalar =>
        (causal.scalarDefinitions id scalar).any (expressionIsTimeInvariant scope)
    else
      (familyElementDefinitions view causal id).any (expressionIsTimeInvariant scope)

def becomesInvariant (view : DaeView) (causal : CausalDefinitions) (pureFunctions : List Bool)
    (invariant : List Bool) (index : Nat) : Bool :=
  match view.vars[index]? with
  | none => false
  | some var =>
    var.role == .algebraic && var.stateSelect != .always &&
      variableIsTimeInvariant view causal index var ⟨invariant, pureFunctions⟩

def invariantAlgebraicVariables (view : DaeView) (causal : CausalDefinitions) (pureFunctions : List Bool) :
    List Bool :=
  settleFlags true (becomesInvariant view causal pureFunctions) (List.replicate view.vars.length false)

structure TimeInvariance where
  algebraics : List Bool
  pureFunctions : List Bool

namespace TimeInvariance

def derive (view : DaeView) (causal : CausalDefinitions) : TimeInvariance :=
  let pureFunctions := DaeTransform.pureFunctions view
  ⟨invariantAlgebraicVariables view causal pureFunctions, pureFunctions⟩

def algebraic (facts : TimeInvariance) (index : Nat) : Bool := facts.algebraics.getD index false

def expression (facts : TimeInvariance) (e : Expr) : Bool :=
  expressionIsTimeInvariant ⟨facts.algebraics, facts.pureFunctions⟩ e

end TimeInvariance

end Rumoca.DaeTransform
