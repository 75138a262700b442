import Mathlib.Data.Prod.Lex
import Mathlib.Order.OrderDual
import Rumoca.Dae.System
import Rumoca.Lib.Flags
import Rumoca.Lib.Forest
/-!
# Coordinate equalities the source system asserts

An additive residual over two continuous variables states that they are equal
up to a sign and a time-invariant displacement; one over a single variable pins
it. The `exact` classes close the equalities without displacement and answer
questions about values, the `affine` classes close all and answer questions
about derivatives. Balances over more variables are deferred until enough of
them are pinned.
-/

namespace Rumoca.DaeTransform

open Rumoca.Dae Rumoca.Lib

/-! ## Anchors -/

/-- The class member whose time derivative is known. -/
inductive EqualityAnchor where
  /-- The class is pinned to a time-invariant value: `value` when the residual
  `ordinal` states it, zero when `zero` is set. -/
  | invariant (value : Option Expr) (zero : Bool) (ordinal : Nat)
  | state (id : Nat)

inductive EqualitySign where
  | same | opposite
deriving DecidableEq, Repr

def EqualitySign.of (parity : Bool) : EqualitySign := if parity then .opposite else .same

def isRealPayload (var : DaeVariable) : Bool := var.scalarType == .real && 0 < var.scalarCount

def isSingleScalarRealPayload (var : DaeVariable) : Bool := var.scalarType == .real && var.scalarCount == 1

def fixedAnyTrue (var : DaeVariable) : Bool := (var.fixed.map fun values => values.any id).getD false

def StateSelect.rank : StateSelect → Nat
  | .never => 0
  | .avoid => 1
  | .default => 2
  | .prefer => 3
  | .always => 4

def anchorRank (view : DaeView) : EqualityAnchor → Nat × Nat × Nat
  | .invariant value zero _ => (255, (value.isSome || zero).toNat, 255)
  | .state id =>
    match view.vars[id]? with
    | none => (0, 0, 0)
    | some var =>
      (StateSelect.rank var.stateSelect, (fixedAnyTrue var).toNat,
        (!var.dimensions.isEmpty && isSingleScalarRealPayload var).toNat)

def anchorOrdinal : EqualityAnchor → Nat
  | .invariant _ _ ordinal => ordinal
  | .state id => id

def anchorKey (view : DaeView) (anchor : EqualityAnchor) : Nat ×ₗ Nat ×ₗ Nat ×ₗ Natᵒᵈ :=
  let (a, b, c) := anchorRank view anchor
  toLex (a, toLex (b, toLex (c, OrderDual.toDual (anchorOrdinal anchor))))

/-! ## Signed classes -/

structure SignedClasses where
  parent : List Nat
  rank : List Nat
  parity : List Bool
  anchor : List (Option EqualityAnchor)
  anchorParity : List Bool
  inconsistent : List Bool

namespace SignedClasses

def new (count : Nat) : SignedClasses where
  parent := List.range count
  rank := List.replicate count 0
  parity := List.replicate count false
  anchor := List.replicate count none
  anchorParity := List.replicate count false
  inconsistent := List.replicate count false

def parityAt (c : SignedClasses) (x : Nat) : Bool := c.parity.getD x false

def inconsistentAt (c : SignedClasses) (x : Nat) : Bool := c.inconsistent.getD x false

def rankAt (c : SignedClasses) (x : Nat) : Nat := c.rank.getD x 0

def anchorAt (c : SignedClasses) (x : Nat) : Option EqualityAnchor := c.anchor.getD x none

def anchorParityAt (c : SignedClasses) (x : Nat) : Bool := c.anchorParity.getD x false

/-- The climb of `find`, in at most `fuel` steps. -/
def findFrom (c : SignedClasses) : (fuel : Nat) → (current : Nat) → (parity : Bool) → Nat × Bool
  | 0, current, parity => (current, parity)
  | fuel + 1, current, parity =>
    if parentAt c.parent current = current then (current, parity)
    else c.findFrom fuel (parentAt c.parent current) (parity ^^ c.parityAt current)

def find (c : SignedClasses) (x : Nat) : Nat × Bool := c.findFrom c.parent.length x false

/-- Join one equality edge. The flag says whether the relation changed. -/
def union (c : SignedClasses) (left right : Nat) (opposite : Bool) : SignedClasses × Bool :=
  let (left, leftParity) := c.find left
  let (right, rightParity) := c.find right
  let relative := (leftParity ^^ rightParity) ^^ opposite
  if left = right then
    if relative && !c.inconsistentAt left then ({ c with inconsistent := c.inconsistent.set left true }, true)
    else (c, false)
  else
    let leftRank := c.rankAt left
    let rightRank := c.rankAt right
    let (keep, merged) :=
      if rightRank < leftRank then (left, right)
      else if leftRank < rightRank then (right, left)
      else if left < right then (left, right)
      else (right, left)
    ({ c with
        parent := c.parent.set merged keep
        parity := c.parity.set merged relative
        inconsistent := c.inconsistent.set keep (c.inconsistentAt keep || c.inconsistentAt merged)
        rank := if leftRank = rightRank then c.rank.set keep (min 255 (c.rankAt keep + 1)) else c.rank }, true)

/-- The anchor of a variable's class and the sign of the variable against it.
A pinned class reports `same`: both signs have derivative zero. -/
def anchorOf (c : SignedClasses) (x : Nat) : Option (EqualityAnchor × EqualitySign) :=
  let (root, parity) := c.find x
  if c.inconsistentAt root then none
  else match c.anchorAt root with
    | none => none
    | some (.invariant value zero ordinal) => some (.invariant value zero ordinal, .same)
    | some (.state state) => some (.state state, .of (parity != (c.find state).2))

def valueAnchorOf (c : SignedClasses) (x : Nat) : Option (EqualityAnchor × EqualitySign) :=
  let (root, parity) := c.find x
  if c.inconsistentAt root then none
  else match c.anchorAt root with
    | none => none
    | some (.invariant value zero ordinal) =>
      some (.invariant value zero ordinal, .of (parity != c.anchorParityAt root))
    | some (.state state) => some (.state state, .of (parity != (c.find state).2))

/-- Keep the candidate as the anchor of the variable's class when it outranks the present one. -/
def offerAnchor (view : DaeView) (c : SignedClasses) (x : Nat) (candidate : EqualityAnchor) : SignedClasses :=
  let (root, parity) := c.find x
  let replace := match c.anchorAt root with
    | none => true
    | some current => decide (anchorKey view current < anchorKey view candidate)
  if replace then
    { c with anchor := c.anchor.set root (some candidate), anchorParity := c.anchorParity.set root parity }
  else c

def clearAnchors (c : SignedClasses) : SignedClasses :=
  { c with
    anchor := List.replicate c.anchor.length none
    anchorParity := List.replicate c.anchorParity.length false }

end SignedClasses

/-! ## Additive residuals -/

structure AdditiveInvariant where
  expression : Expr
  negated : Bool
  zero : Bool

/-- The signed operands of an additive residual. -/
structure AdditiveOperands where
  vars : List (Nat × Bool)
  invariants : List AdditiveInvariant

def AdditiveOperands.append (a b : AdditiveOperands) : AdditiveOperands :=
  ⟨a.vars ++ b.vars, a.invariants ++ b.invariants⟩

mutual

def isTimeInvariant : Expr → Bool
  | .literal (.real _) | .literal (.integer _) => true
  | .coordinate (.parameter _) => true
  | .unary .plus a | .unary .negate a => a.isWholeModel && isTimeInvariant a
  | .binary .add a b | .binary .subtract a b | .binary .multiply a b | .binary .divide a b =>
    (a.isWholeModel && isTimeInvariant a) && (b.isWholeModel && isTimeInvariant b)
  | .array as | .builtin _ as => areTimeInvariant as
  | _ => false

def areTimeInvariant : List Expr → Bool
  | [] => true
  | a :: as => (a.isWholeModel && isTimeInvariant a) && areTimeInvariant as

end

def isZeroLiteral : Expr → Bool
  | .literal (.real q) => q == 0
  | .literal (.integer n) => n == 0
  | .builtin .zeros _ => true
  | _ => false

/-- The argument that a call returns, by its ordinal: the body assigns that parameter to the result. -/
def forwardedArgument (view : DaeView) (function output : Nat) : Option Nat :=
  match view.singleAssignmentResult function output with
  | some (.coordinate (.functionParameter _ ordinal)) => some ordinal
  | _ => none

inductive SingletonRealProjection where
  | state (id : Nat) | derivative (id : Nat) | algebraic (id : Nat)
deriving DecidableEq, Repr

section Flatten

-- `staticOne` is the static evaluation of a subscript to the position one.
variable (view : DaeView) (staticOne : Expr → Bool)

def isStaticOneSubscript : Subscript → Bool
  | .index e => e.isWholeModel && staticOne e
  | _ => false

/-- The declaration is an array of one Real scalar, and one static position for each axis selects it. -/
def projectsSingleton (id : Nat) (subscripts : List Subscript) : Bool :=
  !subscripts.isEmpty && match view.vars[id]? with
    | none => false
    | some var =>
      !var.dimensions.isEmpty && isSingleScalarRealPayload var && subscripts.length == var.dimensions.length &&
        subscripts.all (isStaticOneSubscript staticOne)

def singletonRealProjection : Expr → Option SingletonRealProjection
  | .index (.coordinate (.state id)) ss => if projectsSingleton view staticOne id ss then some (.state id) else none
  | .index (.coordinate (.derivative id)) ss =>
    if projectsSingleton view staticOne id ss then some (.derivative id) else none
  | .index (.coordinate (.algebraic id)) ss =>
    if projectsSingleton view staticOne id ss then some (.algebraic id) else none
  | _ => none

def pushVariable (id : Nat) (negated : Bool) : Option AdditiveOperands :=
  match view.vars[id]? with
  | some var => if isRealPayload var then some ⟨[(id, negated)], []⟩ else none
  | none => none

def pushInvariant (e : Expr) (negated : Bool) : Option AdditiveOperands :=
  if isTimeInvariant e then some ⟨[], [⟨e, negated, isZeroLiteral e⟩]⟩ else none

mutual

/-- The signed additive leaves of an expression, when each is a continuous Real
variable, its sole scalar, or time-invariant. -/
def flattenAdditive : Expr → Bool → Option AdditiveOperands
  | e@(.unary .plus a), negated => if e.isWholeModel then flattenAdditive a negated else none
  | e@(.unary .negate a), negated => if e.isWholeModel then flattenAdditive a (!negated) else none
  | e@(.binary .add a b), negated =>
    if e.isWholeModel then do return (← flattenAdditive a negated).append (← flattenAdditive b negated) else none
  | e@(.binary .subtract a b), negated =>
    if e.isWholeModel then do return (← flattenAdditive a negated).append (← flattenAdditive b (!negated)) else none
  | .coordinate (.state id), negated | .coordinate (.algebraic id), negated => pushVariable view id negated
  | e@(.index _ _), negated =>
    if e.isWholeModel then
      match singletonRealProjection view staticOne e with
      | some (.state id) | some (.algebraic id) => some ⟨[(id, negated)], []⟩
      | _ => none
    else none
  | e@(.call function output as), negated =>
    if e.isWholeModel then
      match (forwardedArgument view function output).bind fun ordinal => (flattenEach as negated)[ordinal]? with
      | some operands => operands
      | none => pushInvariant e negated
    else none
  | e, negated => if e.isWholeModel then pushInvariant e negated else none

def flattenEach : List Expr → Bool → List (Option AdditiveOperands)
  | [], _ => []
  | a :: as, negated => flattenAdditive a negated :: flattenEach as negated

end

def additiveOperands (residual : Expr) : Option AdditiveOperands := flattenAdditive view staticOne residual false

end Flatten

/-! ## What a residual proves -/

/-- One equality that an additive residual proves. -/
inductive AssertedEquality where
  | aliased (left right : Nat) (opposite displaced : Bool)
  | pinned (id : Nat) (anchor : EqualityAnchor)

structure InferredEqualityEdge where
  left : Nat
  right : Nat
  opposite : Bool
  displaced : Bool
deriving DecidableEq, Repr

def sameRealPayload (view : DaeView) (left right : Nat) : Bool :=
  match view.vars[left]?, view.vars[right]? with
  | some left, some right =>
    isRealPayload left && isRealPayload right &&
      (left.dimensions == right.dimensions || (left.scalarCount == 1 && right.scalarCount == 1))
  | _, _ => false

namespace AdditiveOperands

def offsetFree (o : AdditiveOperands) : Bool := o.invariants.all (·.zero)

/-- The expression that a pinned variable equals, when the residual states that value directly. -/
def pinnedValue (o : AdditiveOperands) (negated : Bool) : Option Expr :=
  if o.offsetFree then o.invariants.head?.map (·.expression)
  else match o.invariants with
    | [only] => if only.negated != negated then some only.expression else none
    | _ => none

def classify (view : DaeView) (residual : Nat) (o : AdditiveOperands) : Option AssertedEquality :=
  match o.vars with
  | [(left, leftNegated), (right, rightNegated)] =>
    if left ≠ right && sameRealPayload view left right then
      -- `a - b = 0` proves `a = b`; `a + b = 0` proves `a = -b`
      some (.aliased left right (leftNegated == rightNegated) (!o.offsetFree))
    else none
  | [(id, negated)] => some (.pinned id (.invariant (o.pinnedValue negated) o.invariants.isEmpty residual))
  | _ => none

end AdditiveOperands

/-! ## The system's equalities -/

/-- Whether an expression of the model names the whole state, and its sole scalar. -/
structure StateCoordinates where
  whole : Option Nat
  scalar : Option Nat
deriving DecidableEq, Repr

structure SystemEqualities where
  exact : SignedClasses
  affine : SignedClasses
  state : List Bool

def invariantAnchorIsZero : EqualityAnchor → Bool
  | .state _ => false
  | .invariant value zero _ => zero || value.any isZeroLiteral

def isStateOrAlgebraicVariable (view : DaeView) (id : Nat) : Bool :=
  match view.vars[id]? with
  | some var => var.role == .state || var.role == .algebraic
  | none => false

namespace SystemEqualities

def alias_ (eq : SystemEqualities) (left right : Nat) (opposite displaced : Bool) : SystemEqualities × Bool :=
  let (affine, affineChanged) := eq.affine.union left right opposite
  if displaced then ({ eq with affine := affine }, affineChanged)
  else
    let (exact, exactChanged) := eq.exact.union left right opposite
    ({ eq with affine := affine, exact := exact }, affineChanged || exactChanged)

def anchorOf (eq : SystemEqualities) (x : Nat) : Option (EqualityAnchor × EqualitySign) := eq.affine.anchorOf x

def valueAnchorOf (eq : SystemEqualities) (x : Nat) : Option (EqualityAnchor × EqualitySign) := eq.exact.valueAnchorOf x

def redundantStates (eq : SystemEqualities) : List (Nat × EqualityAnchor × EqualitySign) :=
  (List.range eq.state.length).filterMap fun id =>
    if eq.state.getD id false then
      match eq.valueAnchorOf id with
      | some (.state state, sign) => if state = id then none else some (id, .state state, sign)
      | some (.invariant value zero ordinal, sign) => some (id, .invariant value zero ordinal, sign)
      | none => none
    else none

end SystemEqualities

/-- The variables left of a balance, at most two, and whether what was eliminated is zero. -/
def eliminateInvariants (eq : SystemEqualities) : List (Nat × Bool) → List (Nat × Bool) → Bool →
    Option (List (Nat × Bool) × Bool)
  | [], remaining, offsetFree => some (remaining, offsetFree)
  | (id, negated) :: rest, remaining, offsetFree =>
    match eq.anchorOf id with
    | some (.invariant _ _ _, _) =>
      eliminateInvariants eq rest remaining
        (offsetFree && (eq.valueAnchorOf id).any fun (anchor, _) => invariantAnchorIsZero anchor)
    | _ => if remaining.length < 2 then eliminateInvariants eq rest (remaining ++ [(id, negated)]) offsetFree else none

/-- The equality of the two variables left when those with a pinned class are eliminated. -/
def AdditiveOperands.aliasAfterInvariantElimination (view : DaeView) (eq : SystemEqualities) (o : AdditiveOperands) :
    Option InferredEqualityEdge :=
  if o.vars.length < 3 then none
  else match eliminateInvariants eq o.vars [] o.offsetFree with
    | some ([(left, leftNegated), (right, rightNegated)], offsetFree) =>
      if left ≠ right && isStateOrAlgebraicVariable view left && isStateOrAlgebraicVariable view right then
        some ⟨left, right, leftNegated == rightNegated, !offsetFree⟩
      else none
    | _ => none

/-- What `collect` has read of the residuals. -/
structure Collected where
  equalities : SystemEqualities
  pinned : List (Nat × EqualityAnchor)
  deferred : List AdditiveOperands

section Collect

variable (view : DaeView) (staticOne : Expr → Bool)

def coordinateExpressions (id : Nat) : StateCoordinates where
  whole := view.expressions.findIdx? fun e =>
    match e with
    | .coordinate (.state state) => state == id && (view.vars[id]?).any isRealPayload
    | _ => false
  scalar := view.expressions.findIdx? fun e =>
    e.isWholeModel && singletonRealProjection view staticOne e == some (.state id)

def StateCoordinates.isEmpty (c : StateCoordinates) : Bool := c.whole.isNone && c.scalar.isNone

def stateCandidates : List (Nat × EqualityAnchor) :=
  view.vars.zipIdx.filterMap fun (var, id) =>
    if var.role ≠ .state || !isRealPayload var || (coordinateExpressions view staticOne id).isEmpty then none
    else some (id, .state id)

def offerBoth (eq : SystemEqualities) (candidate : Nat × EqualityAnchor) : SystemEqualities :=
  { eq with
    exact := eq.exact.offerAnchor view candidate.1 candidate.2
    affine := eq.affine.offerAnchor view candidate.1 candidate.2 }

def resolveAnchors (eq : SystemEqualities) (pinned : List (Nat × EqualityAnchor)) : SystemEqualities :=
  pinned.foldl (offerBoth view) ((stateCandidates view staticOne).foldl (offerBoth view)
    { eq with exact := eq.exact.clearAnchors, affine := eq.affine.clearAnchors })

def recordInferredEdge (s : SystemEqualities × Bool) (edge : InferredEqualityEdge) : SystemEqualities × Bool :=
  let (eq, changed) := s.1.alias_ edge.left edge.right edge.opposite edge.displaced
  (eq, s.2 || changed)

def closeRound (deferred : List AdditiveOperands) (pinned : List (Nat × EqualityAnchor)) (eq : SystemEqualities) :
    SystemEqualities × Bool :=
  let inferred := deferred.filterMap fun operands => operands.aliasAfterInvariantElimination view eq
  let (eq, changed) := inferred.foldl recordInferredEdge (eq, false)
  if changed then (resolveAnchors view staticOne eq pinned, true) else (eq, false)

def closeInvariantBalances (eq : SystemEqualities) (deferred : List AdditiveOperands)
    (pinned : List (Nat × EqualityAnchor)) : SystemEqualities :=
  settle (closeRound view staticOne deferred pinned) (4 * view.vars.length + 1) eq

def collectResidual (s : Collected) (residual : ExprId) : Collected :=
  match additiveOperands view staticOne residual.expression with
  | none => s
  | some operands =>
    match operands.classify view residual.index with
    | none => { s with deferred := s.deferred ++ [operands] }
    | some (.aliased left right opposite displaced) =>
      { s with equalities := (s.equalities.alias_ left right opposite displaced).1 }
    | some (.pinned id anchor) => { s with pinned := s.pinned ++ [(id, anchor)] }

/-- The residuals read: scalar equations, and the bodies of the families that project an array equation. -/
def equalityResiduals (owners : List ContinuousOwner) : List ExprId :=
  owners.flatMap fun owner => match owner with
    | .residual body => [body]
    | .structured family => if family.scalarView = .rowMajorProjection then family.bodies else []

/-- The equalities of a system; `perturb` reorders the deferred balances. -/
def collectWithDeferredEnumeration (perturb : List AdditiveOperands → List AdditiveOperands) : SystemEqualities :=
  let count := view.vars.length
  let s := (equalityResiduals view.continuousOwners).foldl (collectResidual view staticOne)
    ⟨⟨.new count, .new count, view.vars.map (·.role == .state)⟩, [], []⟩
  let deferred := perturb s.deferred
  closeInvariantBalances view staticOne (resolveAnchors view staticOne s.equalities s.pinned) deferred s.pinned

def SystemEqualities.collect : SystemEqualities := collectWithDeferredEnumeration view staticOne id

end Collect

end Rumoca.DaeTransform
