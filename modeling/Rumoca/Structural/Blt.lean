import Rumoca.Structural.Incidence
import Rumoca.Structural.Tarjan
import Rumoca.Structural.Tearing
/-!
# Block lower triangular form

The blocks of a matched system in solve order: families whose every row
references only its own unknown are emitted first, one compact block each,
and the other rows are renumbered and sorted by their strongly connected
components. `none` stands for an index panic of the source.
-/

namespace Rumoca.Structural

/-! ## Declaration context -/

/-- What `checked_source` reads of a structured family of the DAE. -/
structure ContinuousFamily where
  domain : Nat
  bodies : Nat
  scalarRows : Nat
deriving DecidableEq, Repr

inductive ContinuousOwner where
  | Residual (id : Nat)
  | Structured (id : Nat) (family : ContinuousFamily)
deriving DecidableEq, Repr

/-- The DAE as `checked_source` reads it: continuous owners, and the extents of the domains. -/
structure DaeView where
  continuousOwner : Nat → Option ContinuousOwner
  domain : Nat → Option (List Nat)

structure StructuredFamilyContext where
  source : Nat
  domain : Nat
  declarationBases : Option (List UnknownId)
deriving DecidableEq, Repr

/-- `none` at the source's `unreachable!`. -/
def bindSource (view : DaeView) (matching : StructuredMatchingFamily)
    (declarationBases : Option (List UnknownId)) : Option StructuredFamilyContext :=
  match view.continuousOwner matching.sourceOwnerIndex with
  | some (.Structured id family) => some ⟨id, family.domain, declarationBases⟩
  | _ => none

/-- The checks of `checked_source` before it binds the source. -/
def sourceChecked (view : DaeView) (matching : StructuredMatchingFamily) (incidence : Incidence) : Option Unit := do
  let owner := matching.sourceOwnerIndex
  let range ← matching.rowRange
  let next ← checkedUsize (owner + 1)
  guard (incidence.ownerFirstRow[owner]? = some range.1 ∧ incidence.ownerFirstRow[next]? = some range.2)
  match ← view.continuousOwner owner with
  | .Residual _ => none
  | .Structured _ family =>
    let extents ← view.domain family.domain
    let rowCount ← matching.rowCount
    guard (family.bodies = matching.equationsPerPoint ∧ family.scalarRows = rowCount ∧ extents = matching.extents)

def checkedSource (view : DaeView) (matching : StructuredMatchingFamily) (incidence : Incidence)
    (declarations : Option (List UnknownId)) : Option (Option StructuredFamilyContext) :=
  match sourceChecked view matching incidence with
  | none => some none
  | some () => (bindSource view matching declarations).map some

def baseDeclarations (family : StructuredMatchingFamily) (incidence : Incidence) : Option (List UnknownId) :=
  family.baseUnknowns.mapM fun (index : Nat) =>
    match incidence.unknowns[index]? with
    | some (.Derivative state scalar) => some (.Derivative state scalar)
    | some (.Algebraic var scalar) => some (.Algebraic var scalar)
    | _ => none

def projectDeclaration (family : StructuredMatchingFamily) (bases : List UnknownId) (index position : Nat) :
    Option UnknownId := do
  let base ← bases[position]?
  let baseIndex ← family.baseUnknowns[position]?
  let index ← checkedI64 index
  let baseIndex ← checkedI64 baseIndex
  let displacement ← checkedI64 (index - baseIndex)
  let scalar (base : Nat) : Option Nat := do u32OfI64 (← checkedI64 (base + displacement))
  match base with
  | .Derivative state base => (scalar base).map (.Derivative state)
  | .Algebraic var base => (scalar base).map (.Algebraic var)
  | .Solver _ | .Unmatched _ => none

def matchesDeclaration (family : StructuredMatchingFamily) (incidence : Incidence) (bases : List UnknownId)
    (index position : Nat) : Bool :=
  match projectDeclaration family bases index position with
  | none => false
  | some projected => incidence.unknowns[index]? = some projected

/-! ## Blocks -/

structure StructuredScalarBlock where
  matching : StructuredMatchingFamily
  context : Option StructuredFamilyContext
deriving DecidableEq, Repr

inductive BltBlock where
  | Scalar (equation : EquationRef) (unknown : UnknownId)
  | AlgebraicLoop (equations : List EquationRef) (unknowns : List UnknownId) (tearing : Option TearingResult)
  | StructuredScalar (block : StructuredScalarBlock)
deriving DecidableEq, Repr

/-- The rows of `row_range`; the source panics where there is no range. -/
def StructuredScalarBlock.rows (block : StructuredScalarBlock) : List Nat :=
  match block.matching.rowRange with
  | none => []
  | some (start, stop) => List.range' start (stop - start)

def BltBlock.rows : BltBlock → List Nat
  | .Scalar equation _ => [equation.index]
  | .AlgebraicLoop equations _ _ => equations.map (·.index)
  | .StructuredScalar block => block.rows

/-! ## Compact families -/

/-- The unknown of one row of `family` when the row references only its own match. -/
def rowIsSelfContained (family : StructuredMatchingFamily) (incidence : Incidence) (matchEq : List (Option Nat))
    (point position : Nat) : Option Nat := do
  let (row, unknown) ← family.candidate point position
  if incidence.eqUnknowns.row row = [unknown] ∧ (matchEq[row]?).join = some unknown then pure unknown else none

/-- One row of the scan of `family_is_self_contained`, with the declarations still standing. -/
def checkRow (family : StructuredMatchingFamily) (incidence : Incidence) (matchEq : List (Option Nat))
    (declarations : Option (List UnknownId)) (cell : Nat × Nat) : Option (Option (List UnknownId)) := do
  let unknown ← rowIsSelfContained family incidence matchEq cell.1 cell.2
  pure (declarations.filter fun bases => matchesDeclaration family incidence bases unknown cell.2)

def familyIsSelfContained (family : StructuredMatchingFamily) (incidence : Incidence)
    (matchEq : List (Option Nat)) : Option (Option (List UnknownId)) := do
  let range ← family.rowRange
  if range.2 > incidence.nEq ∨ family.pointCount = 0 ∨ family.equationsPerPoint = 0 then none
  else
    let cells := (List.range family.pointCount).flatMap fun point =>
      (List.range family.equationsPerPoint).map (point, ·)
    cells.foldlM (checkRow family incidence matchEq) (baseDeclarations family incidence)

/-- Clear the flags of `rows`, unless one of them is already clear. -/
def claimRows (flags : List Bool) (rows : List Nat) : Option (List Bool) :=
  if rows.any fun row => flags[row]? ≠ some true then none
  else some (rows.foldl (fun flags row => flags.set row false) flags)

def structuredScalarBlock (view : Option DaeView) (family : StructuredMatchingFamily) (incidence : Incidence)
    (declarations : Option (List UnknownId)) : Option StructuredScalarBlock := do
  let context ← match view with
    | none => some none
    | some view => checkedSource view family incidence declarations
  pure ⟨family, context⟩

/-- The blocks so far, and the rows still to sort once a family has qualified. -/
abbrev Split := List StructuredScalarBlock × Option (List Bool)

def splitFamily (view : Option DaeView) (incidence : Incidence) (matchEq : List (Option Nat)) (split : Split)
    (family : StructuredMatchingFamily) : Option Split :=
  match family.rowRange, familyIsSelfContained family incidence matchEq with
  | some (start, stop), some declarations =>
    let flags := split.2.getD (List.replicate incidence.nEq true)
    match claimRows flags (List.range' start (stop - start)) with
    | none => some (split.1, some flags)
    | some flags => do
      let block ← structuredScalarBlock view family incidence declarations
      pure (split.1 ++ [block], some flags)
  | _, _ => some split

def splitSelfContainedFamilies (view : Option DaeView) (incidence : Incidence) (matchEq : List (Option Nat)) :
    Option Split := do
  let (blocks, keep) ← incidence.structuredMatching.foldlM (splitFamily view incidence matchEq) ([], none)
  pure (if blocks = [] then (blocks, none) else (blocks, keep))

/-! ## Sorting the other rows -/

def condenseNodes (adj : List (List Nat)) (keep : List Bool) : List (List Nat) × List Nat :=
  let nodeOfLocal := (List.range keep.length).filter fun node => keep[node]? = some true
  let localOfNode (node : Nat) : Option Nat :=
    if keep[node]? = some true then some (nodeOfLocal.idxOf node) else none
  (nodeOfLocal.map fun node => (neighbors adj node).filterMap localOfNode, nodeOfLocal)

def tearScc (scc : List Nat) (incidence : Incidence) (matchEq : List (Option Nat)) :
    Option (Option TearingResult) := do
  let owned ← scc.mapM fun eq => matchEq[eq]?
  match owned.mapM id with
  | none => pure none
  | some vars =>
    if ¬ vars.Nodup then pure none
    else
      -- `HashMap::get` of the map from the loop's unknowns to their positions
      let varLocal (var : Nat) : Option Nat := if var ∈ vars then some (vars.idxOf var) else none
      tearAlgebraicLoop scc.length (scc.map fun eq => (incidence.eqUnknowns.row eq).filterMap varLocal)

def matchedUnknown (incidence : Incidence) (matchEq : List (Option Nat)) (eq : Nat) : Option (Option UnknownId) := do
  match ← matchEq[eq]? with
  | none => pure none
  | some var => (incidence.unknowns[var]?).map some

def sccToBlock (incidence : Incidence) (matchEq : List (Option Nat)) (scc : List Nat) : Option BltBlock :=
  match scc with
  | [eq] => do
    let equation ← incidence.equationRefs[eq]?
    let unknown ← matchedUnknown incidence matchEq eq
    pure (.Scalar equation (unknown.getD (.Unmatched eq)))
  | scc => do
    let equations ← scc.mapM fun eq => incidence.equationRefs[eq]?
    let unknowns ← scc.mapM (matchedUnknown incidence matchEq)
    let tearing ← tearScc scc incidence matchEq
    pure (.AlgebraicLoop equations (unknowns.filterMap id) tearing)

def buildBltBlocks (view : Option DaeView) (incidence : Incidence) (matchEq : List (Option Nat))
    (adj : List (List Nat)) : Option (List BltBlock) := do
  match ← splitSelfContainedFamilies view incidence matchEq with
  | (_, none) =>
    let sccs ← tarjanScc incidence.nEq adj
    sccs.mapM (sccToBlock incidence matchEq)
  | (structured, some keep) =>
    let (subAdj, nodeOfLocal) := condenseNodes adj keep
    let sccs ← tarjanScc nodeOfLocal.length subAdj
    let blocks ← sccs.mapM fun scc => sccToBlock incidence matchEq (scc.filterMap (nodeOfLocal[·]?))
    pure (structured.map .StructuredScalar ++ blocks)

end Rumoca.Structural
