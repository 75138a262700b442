import Mathlib.Data.List.Sort
import Mathlib.Data.Prod.Lex
import Mathlib.Data.String.Basic
import Rumoca.Flatten.FlatModel
import Rumoca.Lib.Bfs
/-!
# The virtual connection graph

Required edges come from `Connections.branch`, optional ones from `connect`.
A spanning forest keeps the required edges and as many optional ones as join
separate trees without joining definite roots. Each tree gets one root, and a
branch is oriented by the depths of its ends below it.
-/

namespace Rumoca.Flatten

open Rumoca.Lib

abbrev Node := String

abbrev Edge := Node × Node

/-- What the pre-scan collects. The definite roots are a set, here in any order. -/
structure VcgPreScanData where
  definiteRoots : List Node
  branches : List Edge
  branchSpans : List Span
  potentialRoots : List (Node × Int)

/-! ## The edge forest -/

/-- A union-find over the nodes; the index of a node is its position. -/
structure VcgEdgeForest where
  nodes : List Node
  parent : List Nat
  hasDefiniteRoot : List Bool

namespace VcgEdgeForest

def index (s : VcgEdgeForest) (node : Node) : Option Nat := s.nodes.idxOf? node

def dedup : List Node → List Node
  | a :: b :: rest => if a = b then dedup (b :: rest) else a :: dedup (b :: rest)
  | nodes => nodes

def newEmpty (definiteRoots : List Node) (branches optionalEdges : List Edge) : VcgEdgeForest :=
  let nodes := dedup (((branches ++ optionalEdges).flatMap (fun (lhs, rhs) => [lhs, rhs]) ++ definiteRoots).insertionSort
    (· ≤ ·))
  { nodes
    parent := List.range nodes.length
    hasDefiniteRoot := definiteRoots.foldl (fun flags root =>
      match nodes.idxOf? root with
      | some index => flags.set index true
      | none => flags) (List.replicate nodes.length false) }

/-- The root above `index`, with every node of the path pointed at it. -/
def findParents : (fuel : Nat) → List Nat → Nat → Option (List Nat × Nat)
  | 0, _, _ => none
  | fuel + 1, parents, index => do
    let parent ← parents[index]?
    if parent = index then return (parents, index)
    let (parents, root) ← findParents fuel parents parent
    return (parents.set index root, root)

def find (s : VcgEdgeForest) (index : Nat) : Option (VcgEdgeForest × Nat) := do
  let (parent, root) ← findParents s.parent.length s.parent index
  pure ({ s with parent }, root)

/-- Join two trees under the lower of their roots. -/
def union (s : VcgEdgeForest) (lhs rhs : Nat) : Option VcgEdgeForest := do
  let (s, lhs) ← s.find lhs
  let (s, rhs) ← s.find rhs
  if lhs = rhs then return s
  let (keep, merge) := if lhs < rhs then (lhs, rhs) else (rhs, lhs)
  let keepDefinite ← s.hasDefiniteRoot[keep]?
  let mergeDefinite ← s.hasDefiniteRoot[merge]?
  return { s with
    parent := s.parent.set merge keep
    hasDefiniteRoot := s.hasDefiniteRoot.set keep (keepDefinite || mergeDefinite) }

/-- The roots of two nodes, and whether both trees hold a definite root. -/
def meet (s : VcgEdgeForest) (lhs rhs : Nat) : Option (VcgEdgeForest × Nat × Nat × Bool) := do
  let (s, lhsRoot) ← s.find lhs
  let (s, rhsRoot) ← s.find rhs
  let lhsDefinite ← s.hasDefiniteRoot[lhsRoot]?
  let rhsDefinite ← s.hasDefiniteRoot[rhsRoot]?
  pure (s, lhsRoot, rhsRoot, lhsDefinite && rhsDefinite)

def closesCycle (lhs rhs : Node) (span : Span) : FlattenError :=
  .invalidConnectionGraph
    ("Connections.branch(" ++ lhs ++ ", " ++ rhs ++ ") closes a cycle of required spanning-tree edges") span

def connectsDefiniteRoots (lhs rhs : Node) (span : Span) : FlattenError :=
  .invalidConnectionGraph ("Connections.branch(" ++ lhs ++ ", " ++ rhs ++
    ") connects two required-edge trees that each contain a definite root") span

def insertRequiredEdge (s : VcgEdgeForest) (lhs rhs : Node) (span : Span) : FlattenResult VcgEdgeForest := do
  let lhsIndex ← s.index lhs
  let rhsIndex ← s.index rhs
  let (s, lhsRoot, rhsRoot, definite) ← s.meet lhsIndex rhsIndex
  if lhsRoot = rhsRoot then throw (closesCycle lhs rhs span)
  if definite then throw (connectsDefiniteRoots lhs rhs span)
  let s ← s.union lhsRoot rhsRoot
  return s

def rejectOptionalEdge (s : VcgEdgeForest) (lhs rhs : Node) : Option (VcgEdgeForest × Bool) :=
  match s.index lhs, s.index rhs with
  | some lhs, some rhs => do
    let (s, lhsRoot, rhsRoot, definite) ← s.meet lhs rhs
    if lhsRoot = rhsRoot ∨ definite then return (s, true)
    let s ← s.union lhsRoot rhsRoot
    return (s, false)
  | _, _ => some (s, false)

end VcgEdgeForest

/-! ## Required edges -/

def noSourceSpan (lhs rhs : Node) : FlattenError :=
  .missingSourceContext ("Connections.branch(" ++ lhs ++ ", " ++ rhs ++ ") has no source span")

def provenanceWithoutEdge : FlattenError :=
  .missingSourceContext "virtual connection graph has provenance without a required edge"

def branchSpan (data : VcgPreScanData) (edgeIndex : Nat) : Option Span :=
  (data.branchSpans[edgeIndex]?).filter (!·.isDummy)

/-- `RequiredEdgeForest::construct`. -/
def constructRequiredEdgeForest (data : VcgPreScanData) (optionalEdges : List Edge) : FlattenResult VcgEdgeForest := do
  let forest ← data.branches.zipIdx.foldlM (fun (forest : VcgEdgeForest) (edge, edgeIndex) =>
    match branchSpan data edgeIndex with
    | some span => forest.insertRequiredEdge edge.1 edge.2 span
    | none => throw (noSourceSpan edge.1 edge.2))
    (VcgEdgeForest.newEmpty data.definiteRoots data.branches optionalEdges)
  if data.branchSpans.length ≠ data.branches.length then throw provenanceWithoutEdge
  return forest

/-! ## Traversals -/

def collectAllNodes (data : VcgPreScanData) (optionalEdges : List Edge) : List Node :=
  (data.branches ++ optionalEdges).flatMap (fun (a, b) => [a, b]) ++ data.definiteRoots ++ data.potentialRoots.map (·.1)

def neighbors (edges : List Edge) (node : Node) : List Node :=
  edges.flatMap fun (a, b) => (if a = node then [b] else []) ++ (if b = node then [a] else [])

/-- The nodes that a search from `start` takes, and the nodes visited after it. -/
def bfsComponent (adj : Node → List Node) (fuel : Nat) (start : Node) (visited : Node → Option Unit) :
    Option (List Node × (Node → Option Unit)) := do
  let found ← Search.run adj id fuel (Search.start visited () [start])
  pure (found.taken, found.seen)

/-- The nodes visited, and the components found. -/
structure Visit where
  visited : Node → Option Unit
  components : List (List Node)

def Visit.turn (adj : Node → List Node) (fuel : Nat) (s : Visit) (node : Node) : Option Visit :=
  if (s.visited node).isSome then some s
  else do
    let (component, visited) ← bfsComponent adj fuel node s.visited
    pure ⟨visited, s.components ++ [component]⟩

def findConnectedComponents (adj : Node → List Node) (allNodes : List Node) : Option (List (List Node)) := do
  let s ← allNodes.foldlM (Visit.turn adj (allNodes.length + 1)) ⟨fun _ => none, []⟩
  pure s.components

def bfsDepths (adj : Node → List Node) (fuel : Nat) (root : Node) : Option (Node → Option Nat) := do
  let found ← Search.run adj (· + 1) fuel (Search.start (fun _ => none) 0 [root])
  pure found.seen

/-! ## Roots -/

def betterPotentialRoot (component : List Node) (best : Option (Node × Int)) (potential : Node × Int) :
    Option (Node × Int) :=
  if potential.1 ∉ component then best
  else
    match best with
    | none => some potential
    | some (bestPath, bestPriority) =>
      if potential.2 < bestPriority ∨ (potential.2 = bestPriority ∧ potential.1 < bestPath) then some potential else best

def findBestPotentialRoot (component : List Node) (potentialRoots : List (Node × Int)) : Option Node := do
  let (bestPath, _) ← potentialRoots.foldl (betterPotentialRoot component) none
  component.find? (· = bestPath)

/-- The root of a component. `none`: the component is empty, which is a panic. -/
def selectRoot (data : VcgPreScanData) (component : List Node) : Option Node :=
  match component.find? (· ∈ data.definiteRoots) with
  | some node => some node
  | none =>
    match findBestPotentialRoot component data.potentialRoots with
    | some node => some node
    | none => component.min?

def componentSeeds (data : VcgPreScanData) (component : List Node) : Option (List Node) :=
  let definite := component.filter (· ∈ data.definiteRoots)
  if definite.isEmpty then do
    let root ← selectRoot data component
    pure [root]
  else some definite

def rootDistances (data : VcgPreScanData) (allNodes : List Node) (adj : Node → List Node) :
    Option (Node → Option Nat) := do
  let components ← findConnectedComponents adj allNodes
  let seeds ← components.mapM (componentSeeds data)
  let found ← Search.run adj (· + 1) (allNodes.length + 1) (Search.start (fun _ => none) 0 seeds.flatten)
  pure found.seen

/-! ## The selected forest -/

def normalizeEdgeKey (a b : Node) : Node × Node := if a ≤ b then (a, b) else (b, a)

def usizeMax : Nat := 2 ^ 64 - 1

def edgeKey (distance : Node → Option Nat) (edge : Edge) : Nat ×ₗ Nat ×ₗ Node ×ₗ Node :=
  let lhsDistance := (distance edge.1).getD usizeMax
  let rhsDistance := (distance edge.2).getD usizeMax
  toLex (min lhsDistance rhsDistance, toLex (max lhsDistance rhsDistance, toLex (normalizeEdgeKey edge.1 edge.2)))

def orderOptionalEdgesByRootDistance (data : VcgPreScanData) (allNodes : List Node) (optionalEdges : List Edge) :
    Option (List Edge) := do
  let distance ← rootDistances data allNodes (neighbors (data.branches ++ optionalEdges))
  pure (optionalEdges.insertionSort fun e f => edgeKey distance e ≤ edgeKey distance f)

/-- The optional edges in turn: the forest, the edges it takes and the edges it breaks. -/
structure Selection where
  forest : VcgEdgeForest
  selected : List Edge
  broken : List Edge

def Selection.turn (s : Selection) (edge : Edge) : Option Selection := do
  let (forest, rejected) ← s.forest.rejectOptionalEdge edge.1 edge.2
  pure (if rejected then { s with forest, broken := s.broken ++ [edge] }
    else { s with forest, selected := s.selected ++ [edge] })

def selectOptionalEdges (data : VcgPreScanData) (allNodes : List Node) (optionalEdges : List Edge)
    (required : VcgEdgeForest) : Option Selection := do
  let ordered ← orderOptionalEdgesByRootDistance data allNodes optionalEdges
  ordered.foldlM Selection.turn ⟨required, [], []⟩

/-- The selected edges alone as a union-find, and the edges the forest breaks. -/
structure SelectedSpanningForest where
  selected : VcgEdgeForest
  broken : List Edge

def SelectedSpanningForest.new (required : VcgEdgeForest) (selectedEdges broken : List Edge) :
    Option SelectedSpanningForest := do
  let empty : VcgEdgeForest := ⟨required.nodes, List.range required.parent.length,
    List.replicate required.parent.length false⟩
  let selected ← selectedEdges.foldlM (fun (s : VcgEdgeForest) edge =>
    match s.index edge.1, s.index edge.2 with
    | some lhs, some rhs => s.union lhs rhs
    | _, _ => some s) empty
  pure ⟨selected, broken⟩

/-! ## Roots and orientation -/

structure VcgResult where
  isRoot : Node → Option Bool
  rooted : Node → Option Bool
  spanningForest : SelectedSpanningForest

/-- What the components write in turn. -/
structure Orientation where
  isRoot : Node → Option Bool
  rooted : Node → Option Bool
  depths : Node → Option Nat

def Orientation.empty : Orientation := ⟨fun _ => none, fun _ => none, fun _ => none⟩

def orientComponent (data : VcgPreScanData) (adj : Node → List Node) (fuel : Nat) (s : Orientation)
    (component : List Node) : Option Orientation := do
  let root ← selectRoot data component
  let hasDefiniteRoot := component.any (· ∈ data.definiteRoots)
  let depths ← bfsDepths adj fuel root
  pure (component.foldl (fun s node =>
    { s with
      isRoot := Function.update s.isRoot node
        (some (decide (node ∈ data.definiteRoots) || (!hasDefiniteRoot && decide (node = root))))
      rooted := Function.update s.rooted node (some false) })
    { s with depths := fun node => (depths node).or (s.depths node) })

def orientBranch (depths : Node → Option Nat) (rooted : Node → Option Bool) (edge : Edge) : Node → Option Bool :=
  match depths edge.1, depths edge.2 with
  | some lhsDepth, some rhsDepth => Function.update rooted edge.1 (some (decide (lhsDepth < rhsDepth)))
  | _, _ => rooted

/-- The spanning forest with its roots. `allNodes` is the set of all nodes in the order of iteration. -/
def buildVcg (data : VcgPreScanData) (allNodes : List Node) (optionalEdges : List Edge) (required : VcgEdgeForest) :
    Option VcgResult := do
  if allNodes.isEmpty then return ⟨fun _ => none, fun _ => none, ⟨⟨[], [], []⟩, []⟩⟩
  let selection ← selectOptionalEdges data allNodes optionalEdges required
  let spanningForest ← SelectedSpanningForest.new required selection.selected selection.broken
  let adj := neighbors (data.branches ++ selection.selected)
  let components ← findConnectedComponents adj allNodes
  let oriented ← components.foldlM (orientComponent data adj (allNodes.length + 1)) Orientation.empty
  let rooted := data.branches.foldl (orientBranch oriented.depths) oriented.rooted
  return ⟨oriented.isRoot, rooted, spanningForest⟩

end Rumoca.Flatten
