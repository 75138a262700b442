import Rumoca.Flatten.FlatModel
/-!
# Connection sets

Flow and stream sets are built scope by scope, potential sets over all scopes
together. A connection whose endpoints are not both primitive members is
expanded to its members first; `expand` stands for that expansion.
-/

namespace Rumoca.Flatten

open Rumoca.Lib

/-- A `connect` between two endpoints, each by its rendered path. -/
structure InstanceConnection where
  a : VarName
  b : VarName
  span : Span
  scope : String
deriving DecidableEq, Repr

inductive ConnectionKind where
  | flow | potential
deriving DecidableEq, Repr

structure ConnectionSet where
  vars : List VarName
  kind : ConnectionKind
  scope : String
  span : Span
deriving DecidableEq, Repr

structure StreamConnectionSet where
  vars : List VarName
  scope : String
deriving DecidableEq, Repr

/-- What the connections of a scope are collected in. -/
structure ConnectionBuild where
  flowPairs : List (VarName × VarName)
  potentialUf : UnionFind
  streamUf : UnionFind

abbrev Expansion := FlatModel → InstanceConnection → ConnectionBuild → FlattenResult ConnectionBuild

section
variable (flat : FlatModel)

def connectPrimitiveVars (varA varB : VarName) (build : ConnectionBuild) : FlattenResult ConnectionBuild := do
  let pairing ← ExceptT.mk (some (classifyConnectionMemberPair flat varA varB))
  if pairing = .noEquation then return build
  let isFlowA := isFlowVariable flat varA
  let isFlowB := isFlowVariable flat varB
  if isFlowA && isFlowB then return { build with flowPairs := build.flowPairs ++ [(varA, varB)] }
  else if isStreamVariable flat varA && isStreamVariable flat varB then
    let streamUf ← build.streamUf.union varA varB
    return { build with streamUf }
  else if !isFlowA && !isFlowB then
    let potentialUf ← build.potentialUf.union varA varB
    return { build with potentialUf }
  else return build

variable (expand : Expansion)

def isPrimitiveEndpoint (var : VarName) : Bool := isPrimitiveFlatVar flat var || isSubscriptedVariable flat var

def processConnection (build : ConnectionBuild) (connection : InstanceConnection) : FlattenResult ConnectionBuild :=
  if isPrimitiveFlatVar flat connection.a && isPrimitiveFlatVar flat connection.b then
    connectPrimitiveVars flat connection.a connection.b build
  else if isPrimitiveEndpoint flat connection.a && isPrimitiveEndpoint flat connection.b then
    connectPrimitiveVars flat connection.a connection.b build
  else expand flat connection build

/-! ## Provenance -/

/-- `entry(var).or_insert(span)`. -/
def recordVarSpan (spans : List (VarName × Span)) (var : VarName) (span : Span) : List (VarName × Span) :=
  if (spans.lookup var).isSome then spans else spans ++ [(var, span)]

def firstSpans (connections : List InstanceConnection) : List (VarName × Span) :=
  connections.foldl (fun spans connection =>
    recordVarSpan (recordVarSpan spans connection.a connection.span) connection.b connection.span) []

def flatVariableSourceSpan (var : VarName) : Option Span :=
  let declaration : Option Variable :=
    match flat.vars.lookup var with
    | some declaration => some declaration
    | none => (subscriptedBaseVar flat var).bind fun base => flat.vars.lookup base
  (declaration.map (·.sourceSpan)).filter fun span => !span.isDummy

def Span.key (span : Span) : Nat ×ₗ Nat ×ₗ Nat := toLex (span.source, toLex (span.start, span.stop))

/-- `min_by_key`: the first span of the least key. -/
def minSpan : List Span → Option Span
  | [] => none
  | span :: spans => some (spans.foldl (fun best span => if span.key < best.key then span else best) span)

def memberSpans (vars : List VarName) (varFirstSpan : List (VarName × Span)) : List Span :=
  vars.filterMap fun var =>
    ((varFirstSpan.lookup var).filter fun span => !span.isDummy).or (flatVariableSourceSpan flat var)

def representativeConnectionSpan (vars : List VarName) (varFirstSpan : List (VarName × Span)) :
    Except FlattenError Span :=
  match minSpan (memberSpans flat vars varFirstSpan) with
  | some span => .ok span
  | none => .error (.missingSourceContext ("connection set `" ++ ", ".intercalate vars ++ "` has no source span"))

/-! ## Building -/

def connectionSetsOf (varFirstSpan : List (VarName × Span)) (kind : ConnectionKind) (scope : String)
    (sets : List (VarName × List VarName)) : FlattenResult (List ConnectionSet) :=
  (sets.filter fun set => 2 ≤ set.2.length).mapM fun set => do
    let span ← ExceptT.mk (some (representativeConnectionSpan flat set.2 varFirstSpan))
    pure ⟨set.2, kind, scope, span⟩

def streamSetsOf (varFirstSpan : List (VarName × Span)) (scope : String) (sets : List (VarName × List VarName)) :
    FlattenResult (List StreamConnectionSet) :=
  sets.mapM fun set => do
    let _ ← ExceptT.mk (some (representativeConnectionSpan flat set.2 varFirstSpan))
    pure ⟨set.2, scope⟩

/-- The sets found so far. -/
structure FoundSets where
  potentialUf : UnionFind
  result : List ConnectionSet
  streamSets : List StreamConnectionSet

def processScope (varFirstSpan : List (VarName × Span)) (found : FoundSets)
    (scope : String × List InstanceConnection) : FlattenResult FoundSets := do
  let build ← scope.2.foldlM (processConnection flat expand) ⟨[], found.potentialUf, UnionFind.new⟩
  let scopeUf ← UnionFind.ofPairs build.flowPairs
  let (_, flowSets) ← scopeUf.getSets
  let flow ← connectionSetsOf flat varFirstSpan .flow scope.1 flowSets
  let (_, streamSets) ← build.streamUf.getSets
  let stream ← streamSetsOf flat varFirstSpan scope.1 streamSets
  pure ⟨build.potentialUf, found.result ++ flow, found.streamSets ++ stream⟩

def connectionsByScope (connections : List InstanceConnection) : List (String × List InstanceConnection) :=
  connections.foldl (fun scopes connection => pushEntry scopes connection.scope connection) []

def buildConnectionSets (connections : List InstanceConnection) :
    FlattenResult (List ConnectionSet × List StreamConnectionSet) := do
  let varFirstSpan := firstSpans connections
  let found ← (connectionsByScope connections).foldlM (processScope flat expand varFirstSpan) ⟨UnionFind.new, [], []⟩
  let (_, potentialSets) ← found.potentialUf.getSets
  let potential ← connectionSetsOf flat varFirstSpan .potential "" potentialSets
  pure (found.result ++ potential, found.streamSets)

end

end Rumoca.Flatten
