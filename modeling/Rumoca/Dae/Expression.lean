import Mathlib.Algebra.Algebra.Rat
import Mathlib.Algebra.BigOperators.Group.List.Basic
/-!
# Expressions of the checked DAE and their values

A value is a row-major payload of scalars with its dimensions, a record or a
text. The additive operators, aggregates, comprehensions, indexing and branch
selection are computed here; `Operations` gives the other operations. An
expression with no value (a type error, an index out of range) evaluates to
`none`.
-/

namespace Rumoca.Dae

inductive UnaryOperator where
  | plus | negate | not
deriving DecidableEq, Repr

inductive BinaryOperator where
  | add | subtract | multiply | divide | power
  | elementwiseAdd | elementwiseSubtract | elementwiseMultiply | elementwiseDivide | elementwisePower
  | equal | notEqual | less | lessEqual | greater | greaterEqual | and | or
deriving DecidableEq, Repr

inductive PureBuiltin where
  | abs | sign | sqrt | div | mod | rem | floor | ceil | integer
  | sin | cos | tan | asin | acos | atan | atan2 | sinh | cosh | tanh | exp | log | log10
  | smooth | noEvent | homotopy | min | max | sum | product | size
  | zeros | ones | fill | linspace | cross | promotedCat1 | promotedCat2 | identity | vector
  | transpose | diagonal | outerProduct | skew | linearSolve
deriving DecidableEq, Repr

inductive DaeLiteral where
  | real (value : ℚ)
  | integer (value : Int)
  | enumeration (value : Int)
  | boolean (value : Bool)
  | string (value : String)
deriving DecidableEq, Repr

inductive Coordinate where
  | parameter (id : Nat)
  | input (id : Nat)
  | state (id : Nat)
  | derivative (id : Nat)
  | algebraic (id : Nat)
  | discreteReal (id : Nat)
  | discreteValue (id : Nat)
  | preDiscreteReal (id : Nat)
  | preDiscreteValue (id : Nat)
  | preState (id : Nat)
  | preAlgebraic (id : Nat)
  | time
  | clockInterval (id : Nat)
  | condition (id : Nat)
  | delay (id : Nat)
  | previous (id : Nat)
  | terminal (id : Nat)
  | binder (domain ordinal : Nat)
  | functionParameter (function ordinal : Nat)
deriving DecidableEq, Repr

mutual

inductive Expr where
  | literal (value : DaeLiteral)
  | coordinate (coordinate : Coordinate)
  | unary (operator : UnaryOperator) (operand : Expr)
  | binary (operator : BinaryOperator) (lhs rhs : Expr)
  /-- Guards and branch values in turn, the value of the last branch at the end. -/
  | conditional (operands : List Expr)
  | array (operands : List Expr)
  | record (operands : List Expr)
  | field (base : Expr) (field : Nat)
  | range (start : Int) (explicitStep : Option Int) (stop : Int)
  | comprehension (domain : Nat) (body : Expr)
  | index (base : Expr) (subscripts : List Subscript)
  | arrayUpdate (base value : Expr) (subscripts : List Subscript)
  | builtin (builtin : PureBuiltin) (arguments : List Expr)
  | call (function output : Nat) (arguments : List Expr)
  | stringConversion (value : Expr) (format : List Expr)
  | clockTransfer (source : Expr)
  | functionValue (value : Nat)
  | functionConditionalOutput (conditional value : Nat)
  | functionFoldParameter (fold carried : Nat)
  | functionFoldOutput (fold carried : Nat)

inductive Subscript where
  | index (expression : Expr)
  | whole
  | slice (expression : Expr)

end

instance : Inhabited Expr := ⟨.coordinate .time⟩

mutual

/-- Every expression below `e`, `e` first. -/
def Expr.subexpressions : Expr → List Expr
  | e@(.unary _ a) | e@(.field a _) | e@(.comprehension _ a) | e@(.clockTransfer a) => e :: a.subexpressions
  | e@(.binary _ a b) => e :: (a.subexpressions ++ b.subexpressions)
  | e@(.conditional as) | e@(.array as) | e@(.record as) | e@(.builtin _ as) | e@(.call _ _ as) =>
    e :: subexpressionsOfAll as
  | e@(.index a ss) => e :: (a.subexpressions ++ subexpressionsOfSubscripts ss)
  | e@(.arrayUpdate a b ss) => e :: (a.subexpressions ++ b.subexpressions ++ subexpressionsOfSubscripts ss)
  | e@(.stringConversion a as) => e :: (a.subexpressions ++ subexpressionsOfAll as)
  | e => [e]

def subexpressionsOfAll : List Expr → List Expr
  | [] => []
  | a :: as => a.subexpressions ++ subexpressionsOfAll as

def subexpressionsOfSubscripts : List Subscript → List Expr
  | [] => []
  | .index a :: ss | .slice a :: ss => a.subexpressions ++ subexpressionsOfSubscripts ss
  | .whole :: ss => subexpressionsOfSubscripts ss

end

mutual

def Expr.freeBinders : Expr → List Nat
  | .coordinate (.binder domain _) => [domain]
  | .unary _ a | .field a _ | .clockTransfer a => a.freeBinders
  | .binary _ a b => a.freeBinders ++ b.freeBinders
  | .conditional as | .array as | .record as | .builtin _ as | .call _ _ as => freeBindersOfAll as
  | .comprehension domain body => body.freeBinders.filter (· ≠ domain)
  | .index a ss => a.freeBinders ++ freeBindersOfSubscripts ss
  | .arrayUpdate a b ss => a.freeBinders ++ b.freeBinders ++ freeBindersOfSubscripts ss
  | .stringConversion a as => a.freeBinders ++ freeBindersOfAll as
  | _ => []

def freeBindersOfAll : List Expr → List Nat
  | [] => []
  | a :: as => a.freeBinders ++ freeBindersOfAll as

def freeBindersOfSubscripts : List Subscript → List Nat
  | [] => []
  | .index a :: ss | .slice a :: ss => a.freeBinders ++ freeBindersOfSubscripts ss
  | .whole :: ss => freeBindersOfSubscripts ss

end

def Expr.isFunctionValue : Expr → Bool
  | .coordinate (.functionParameter _ _) | .functionValue _ | .functionConditionalOutput _ _
  | .functionFoldParameter _ _ | .functionFoldOutput _ _ => true
  | _ => false

def Expr.isWholeModel (e : Expr) : Bool := e.freeBinders.isEmpty && !e.subexpressions.any Expr.isFunctionValue

/-! ## Values -/

inductive Value (R : Type) where
  | tensor (dims : List Nat) (entries : List R)
  | record (fields : List (Value R))
  | text (value : String)

/-- The value of one subscript. -/
inductive SubscriptValue where
  | index (position : Int)
  | whole
  | slice (positions : List Int)

namespace Value

variable {R : Type}

def scalar (r : R) : Value R := .tensor [] [r]

def entryAt : Value R → Nat → Option R
  | .tensor _ entries, k => entries[k]?
  | _, _ => none

def map (f : R → R) : Value R → Option (Value R)
  | .tensor dims entries => some (.tensor dims (entries.map f))
  | _ => none

/-- An operation on two arrays of one shape, element by element. -/
def zipWith (f : R → R → R) : Value R → Value R → Option (Value R)
  | .tensor dims xs, .tensor dims' ys =>
    if dims = dims' ∧ xs.length = ys.length then some (.tensor dims (List.zipWith f xs ys)) else none
  | _, _ => none

theorem entryAt_map {f : R → R} {v w : Value R} (h : v.map f = some w) {k : Nat} {r : R} (hr : w.entryAt k = some r) :
    ∃ s, v.entryAt k = some s ∧ f s = r := by
  cases v with
  | tensor dims entries =>
    simp only [map, Option.some.injEq] at h
    subst h
    simpa only [entryAt, List.getElem?_map, Option.map_eq_some_iff] using hr
  | _ => cases h

theorem entryAt_zipWith {f : R → R → R} {a b v : Value R} (h : zipWith f a b = some v) {k : Nat} {r : R}
    (hr : v.entryAt k = some r) : ∃ x y, a.entryAt k = some x ∧ b.entryAt k = some y ∧ f x y = r := by
  cases a with
  | tensor dims xs =>
    cases b with
    | tensor dims' ys =>
      simp only [zipWith] at h
      split at h
      · cases h
        simp only [entryAt, List.getElem?_zipWith] at hr ⊢
        split at hr
        · next x y hx hy => exact ⟨x, y, hx, hy, Option.some.inj hr⟩
        · cases hr
      · cases h
    | _ => cases h
  | _ => cases h

def field? : Value R → Nat → Option (Value R)
  | .record fields, i => fields[i]?
  | _, _ => none

def payload? (dims : List Nat) : Value R → Option (List R)
  | .tensor dims' entries => if dims = dims' then some entries else none
  | _ => none

/-- The array whose leading axes are `outer` and whose elements are `vs`. -/
def stack? (outer : List Nat) : List (Value R) → Option (Value R)
  | [] => some (.tensor outer [])
  | .tensor dims entries :: vs => do
    let rest ← vs.mapM (payload? dims)
    return .tensor (outer ++ dims) (entries ++ rest.flatten)
  | _ => none

def axisPositions (extent : Nat) : SubscriptValue → Option (List Nat)
  | .index i => (position extent i).map ([·])
  | .whole => some (List.range extent)
  | .slice is => is.mapM (position extent)
where
  position (extent : Nat) (i : Int) : Option Nat := if 1 ≤ i ∧ i ≤ extent then some (i - 1).toNat else none

/-- The shape that subscripts select and the row-major offsets of its elements. -/
def gather : List Nat → List SubscriptValue → Option (List Nat × List Nat)
  | [], [] => some ([], [0])
  | [], _ :: _ => none
  | d :: ds, [] => do
    let (dims, offsets) ← gather ds []
    return (d :: dims, (List.range d).flatMap fun p => offsets.map (p * ds.prod + ·))
  | d :: ds, s :: ss => do
    let positions ← axisPositions d s
    let (dims, offsets) ← gather ds ss
    let dims := match s with
      | .index _ => dims
      | _ => positions.length :: dims
    return (dims, positions.flatMap fun p => offsets.map (p * ds.prod + ·))

def index? : Value R → List SubscriptValue → Option (Value R)
  | .tensor dims entries, subscripts => do
    let (dims, offsets) ← gather dims subscripts
    return .tensor dims (← offsets.mapM (entries[·]?))
  | _, _ => none

end Value

/-! ## Evaluation -/

section Evaluation

variable {R : Type} [CommRing R] [Algebra ℚ R]

/-- The operations that `Expr.eval` does not compute itself. `zeros` is an array
of zeros, and the scalar that stands for an integer names that position. -/
structure Operations (R : Type) [CommRing R] where
  not : Value R → Option (Value R)
  binary : BinaryOperator → Value R → Value R → Option (Value R)
  builtin : PureBuiltin → List (Value R) → Option (Value R)
  arrayUpdate : Value R → Value R → List SubscriptValue → Option (Value R)
  /-- Arrays of records, and their elements. -/
  aggregate : List Nat → List (Value R) → Option (Value R)
  element : Value R → List SubscriptValue → Option (Value R)
  stringConversion : Value R → List (Value R) → Option (Value R)
  /-- The branch a guard takes. -/
  truth : Value R → Option Bool
  /-- The position that a scalar names as a subscript. -/
  position : R → Option Int
  position_intCast : ∀ n : Int, position n = some n
  zeros_entries : ∀ args v, builtin .zeros args = some v → ∀ k r, v.entryAt k = some r → r = 0

/-- What an expression reads: the coordinates, the loop indices, the functions
called, and the values that only exist inside a function body. -/
structure Env (R : Type) where
  /-- The states, algebraic variables and outputs, by their identity among the variables. -/
  continuous : Nat → Option (Value R)
  coordinate : Coordinate → Option (Value R)
  binder : Nat → Nat → Int
  call : Nat → Nat → List (Value R) → Option (Value R)
  bodyValue : Expr → Option (Value R)

def Env.bind (env : Env R) (domain : Nat) (tuple : List Int) : Env R :=
  { env with binder := fun d o => if d = domain then tuple.getD o 0 else env.binder d o }

def DaeLiteral.value : DaeLiteral → Value R
  | .real q => .scalar (algebraMap ℚ R q)
  | .integer n | .enumeration n => .scalar (n : R)
  | .boolean b => .scalar (if b then 1 else 0)
  | .string s => .text s

def Coordinate.value (env : Env R) : Coordinate → Option (Value R)
  | .state id | .algebraic id => env.continuous id
  | .binder domain ordinal => some (.scalar (env.binder domain ordinal : R))
  | c => env.coordinate c

/-- The integers `start : step : stop`. -/
def rangeValues (start step stop : Int) : List Int :=
  let count := if 0 < step then (stop - start) / step + 1 else if step < 0 then (start - stop) / (-step) + 1 else 0
  (List.range count.toNat).map fun k => start + step * k

/-- The value of the first branch whose guard holds; the branches not taken need no value. -/
def selectBranch (truth : Value R → Option Bool) : List (Option (Value R)) → Option (Value R)
  | [] => none
  | [value] => value
  | guard :: value :: rest => do
    if ← truth (← guard) then value else selectBranch truth rest

variable (ops : Operations R) (points : Nat → List (List Int)) (extents : Nat → List Nat)

mutual

def Expr.eval : Expr → Env R → Option (Value R)
  | .literal l, _ => some l.value
  | .coordinate c, env => c.value env
  | .unary .plus a, env => a.eval env
  | .unary .negate a, env => do (← a.eval env).map (- ·)
  | .unary .not a, env => do ops.not (← a.eval env)
  | .binary .add a b, env => do Value.zipWith (· + ·) (← a.eval env) (← b.eval env)
  | .binary .subtract a b, env => do Value.zipWith (· - ·) (← a.eval env) (← b.eval env)
  | .binary op a b, env => do ops.binary op (← a.eval env) (← b.eval env)
  | .conditional as, env => selectBranch ops.truth (evalEach as env)
  | .array as, env => do
    let vs ← (evalEach as env).mapM id
    (Value.stack? [vs.length] vs).or (ops.aggregate [vs.length] vs)
  | .record as, env => do return .record (← (evalEach as env).mapM id)
  | .field a i, env => do (← a.eval env).field? i
  | .range start step stop, _ =>
    let values := rangeValues start (step.getD 1) stop
    some (.tensor [values.length] (values.map fun n => (n : R)))
  | .comprehension domain body, env => do
    let vs ← (points domain).mapM fun tuple => body.eval (env.bind domain tuple)
    (Value.stack? (extents domain) vs).or (ops.aggregate (extents domain) vs)
  | .index a ss, env => do
    let v ← a.eval env
    let ss ← (evalSubscripts ss env).mapM id
    match v with
    | .tensor _ _ => v.index? ss
    | v => ops.element v ss
  | .arrayUpdate a b ss, env => do
    ops.arrayUpdate (← a.eval env) (← b.eval env) (← (evalSubscripts ss env).mapM id)
  | .builtin b as, env => do ops.builtin b (← (evalEach as env).mapM id)
  | .call f output as, env => do env.call f output (← (evalEach as env).mapM id)
  | .stringConversion a as, env => do ops.stringConversion (← a.eval env) (← (evalEach as env).mapM id)
  | .clockTransfer a, env => a.eval env
  | e@(.functionValue _), env | e@(.functionConditionalOutput _ _), env | e@(.functionFoldParameter _ _), env
  | e@(.functionFoldOutput _ _), env => env.bodyValue e

def evalEach : List Expr → Env R → List (Option (Value R))
  | [], _ => []
  | a :: as, env => a.eval env :: evalEach as env

def evalSubscripts : List Subscript → Env R → List (Option SubscriptValue)
  | [], _ => []
  | .index a :: ss, env => (do
      let .tensor _ [r] ← a.eval env | none
      return .index (← ops.position r)) :: evalSubscripts ss env
  | .whole :: ss, env => some .whole :: evalSubscripts ss env
  | .slice a :: ss, env => (do
      let .tensor _ rs ← a.eval env | none
      return .slice (← rs.mapM ops.position)) :: evalSubscripts ss env

end

end Evaluation

end Rumoca.Dae
