import Rumoca.Machine
import Rumoca.Flatten.UnionFind
/-!
# Flattened variables and connection members

A flat model is the list of its variables by name. A member of a connection
set is a declared name, or an element path `base[i]` of one, and resolves to
its declaration. What a matched pair of members generates is decided here
from the prefixes of the two declarations.
-/

namespace Rumoca.Flatten

structure Span where
  source : Nat
  start : Nat
  stop : Nat
deriving DecidableEq, Repr

def Span.dummy : Span := ⟨0, 0, 0⟩

def Span.isDummy (span : Span) : Bool := span = Span.dummy

inductive Variability where
  | constant | parameter | discrete | continuous
deriving DecidableEq, Repr

/-- A flat variable, with the fields connection sets read. -/
structure Variable where
  variability : Variability
  flow : Bool
  stream : Bool
  dims : List Int
  isPrimitive : Bool
  sourceSpan : Span
deriving DecidableEq, Repr

structure FlatModel where
  vars : List (VarName × Variable)

inductive FlattenError where
  | missingSourceContext (reason : String)
  | structuralMemberPairedWithVariable (structuralMember structuralVariability variableMember : String)
      (structuralSpan variableSpan : Span)
  | streamMemberPairedWithNonStream (streamMember plainMember : String) (streamSpan plainSpan : Span)
  | invalidConnectionGraph (detail : String) (span : Span)
deriving DecidableEq, Repr

abbrev FlattenResult := ExceptT FlattenError Option

theorem lift_some {α β : Type} (a : α) (f : α → FlattenResult β) :
    ((liftM (some a) : FlattenResult α) >>= f) = f a := rfl

/-! ## Element paths -/

/-- The Unicode `White_Space` characters, which `trim` removes. -/
def isWhiteSpace (c : Char) : Bool :=
  let n := c.toNat
  (9 ≤ n ∧ n ≤ 13) ∨ (0x2000 ≤ n ∧ n ≤ 0x200A) ∨
    n ∈ [0x20, 0x85, 0xA0, 0x1680, 0x2028, 0x2029, 0x202F, 0x205F, 0x3000]

def trim (cs : List Char) : List Char :=
  ((cs.dropWhile isWhiteSpace).reverse.dropWhile isWhiteSpace).reverse

/-- The value of ASCII digits; `none` when there are none or one is no digit. -/
def parseDigits (cs : List Char) : Option Nat :=
  if cs.isEmpty then none
  else cs.foldlM (fun value c => if c.isDigit then some (value * 10 + (c.toNat - '0'.toNat)) else none) 0

/-- `parse::<i64>`. -/
def parseI64 (cs : List Char) : Option Int :=
  match cs with
  | '-' :: digits => (parseDigits digits).bind fun value => checkedI64 (-value)
  | '+' :: digits => (parseDigits digits).bind fun value => checkedI64 value
  | digits => (parseDigits digits).bind fun value => checkedI64 value

/-- `find_trailing_group_start`, over the path from its end: the group up to the bracket that opens it. -/
def trailingGroup (depth : Nat) (taken : List Char) : List Char → Option (List Char × List Char)
  | [] => none
  | c :: rest =>
    if c = ']' then trailingGroup (depth + 1) (c :: taken) rest
    else if c = '[' then
      if depth = 0 then some (c :: taken, rest) else trailingGroup (depth - 1) (c :: taken) rest
    else trailingGroup depth (c :: taken) rest

def trailingGroups : (fuel : Nat) → List (List Char) → List Char → Option (List Char × List (List Char))
  | fuel + 1, groups, ']' :: rest => do
    let (group, rest) ← trailingGroup 0 [']'] rest
    trailingGroups fuel (group :: groups) rest
  | _, groups, rest => if groups.isEmpty ∨ rest.isEmpty then none else some (rest, groups)

def splitTrailingIndexGroups (path : VarName) : Option (VarName × List (List Char)) :=
  (trailingGroups path.length [] path.toList.reverse).map fun (rest, groups) => (String.ofList rest.reverse, groups)

def parseLiteralIndexGroupValues (group : List Char) : Option (List Int) :=
  ((group.drop 1).dropLast.splitOn ',').mapM fun value => parseI64 (trim value)

section
variable (flat : FlatModel)

def declaredArrayElement (var : VarName) : Option (VarName × Variable × List Int) := do
  let (base, groups) ← splitTrailingIndexGroups var
  let baseVar ← flat.vars.lookup base
  let indices := (← groups.mapM parseLiteralIndexGroupValues).flatten
  if baseVar.dims.isEmpty then
    if indices.all (1 ≤ ·) then pure (base, baseVar, indices) else none
  else if indices.length > baseVar.dims.length then none
  else if (indices.zip baseVar.dims).all fun (index, dim) => 1 ≤ dim ∧ 1 ≤ index ∧ index ≤ dim then
    pure (base, baseVar, indices)
  else none

def subscriptedBaseVar (var : VarName) : Option VarName := (declaredArrayElement flat var).map (·.1)

def isSubscriptedVariable (var : VarName) : Bool := (subscriptedBaseVar flat var).isSome

def isPrimitiveFlatVar (var : VarName) : Bool := (flat.vars.lookup var).any (·.isPrimitive)

def connectionMemberDeclaration (var : VarName) : Option Variable :=
  match flat.vars.lookup var with
  | some declaration => some declaration
  | none => (subscriptedBaseVar flat var).bind fun base => flat.vars.lookup base

def isFlowVariable (var : VarName) : Bool := (connectionMemberDeclaration flat var).any (·.flow)

def isStreamVariable (var : VarName) : Bool := (connectionMemberDeclaration flat var).any (·.stream)

/-! ## Pairs of members -/

inductive MemberPairing where
  | connect | noEquation
deriving DecidableEq, Repr

def structuralVariabilityLabel (declaration : Variable) : Option String :=
  match declaration.variability with
  | .parameter => some "parameter"
  | .constant => some "constant"
  | _ => none

def classifyConnectionMemberPair (varA varB : VarName) : Except FlattenError MemberPairing :=
  match connectionMemberDeclaration flat varA, connectionMemberDeclaration flat varB with
  | some declA, some declB =>
    match structuralVariabilityLabel declA, structuralVariabilityLabel declB with
    | some _, some _ => .ok .noEquation
    | some label, none =>
      .error (.structuralMemberPairedWithVariable varA label varB declA.sourceSpan declB.sourceSpan)
    | none, some label =>
      .error (.structuralMemberPairedWithVariable varB label varA declB.sourceSpan declA.sourceSpan)
    | none, none =>
      match declA.stream, declB.stream with
      | true, false => .error (.streamMemberPairedWithNonStream varA varB declA.sourceSpan declB.sourceSpan)
      | false, true => .error (.streamMemberPairedWithNonStream varB varA declB.sourceSpan declA.sourceSpan)
      | _, _ => .ok .connect
  | _, _ => .ok .connect

end

end Rumoca.Flatten
