import Rumoca.Machine
import Rumoca.Lib.Loop
/-!
# Maximum weight assignment

Unit-capacity assignment by shortest augmenting paths over reduced costs.
Every edge is stored with its reverse, and exactly one of the two is
available. Nodes are the rows, then the columns, then the source and the
sink; per-node vectors are total maps. The heap is the list of its entries,
popped by the smallest.
-/

namespace Rumoca.Structural

open Rumoca.Lib

/-- A column of a signature row with its derivative order. -/
structure SignatureEntry where
  column : Nat
  order : Nat
deriving DecidableEq, Repr

structure Assignment.Edge where
  target : Nat
  reverse : Nat
  cost : Int
  available : Bool
deriving DecidableEq, Repr

structure Assignment where
  edges : Nat → List Assignment.Edge
  potentials : Nat → Int
  source : Nat
  sink : Nat

namespace Assignment

def addEdge (graph : Assignment) (source target : Nat) (cost : Int) : Assignment :=
  let forward := (graph.edges source).length
  let reverse := (graph.edges target).length
  let edges := Function.update graph.edges source (graph.edges source ++ [⟨target, reverse, cost, true⟩])
  { graph with
    edges := Function.update edges target (edges target ++ [⟨source, forward, -cost, false⟩]) }

/-- `none` where an index is out of range. -/
def reverseEdge (graph : Assignment) (node index : Nat) : Option Assignment := do
  let edge ← (graph.edges node)[index]?
  let edges := Function.update graph.edges node ((graph.edges node).set index { edge with available := false })
  let back ← (edges edge.target)[edge.reverse]?
  let edges := Function.update edges edge.target ((edges edge.target).set edge.reverse { back with available := true })
  pure { graph with edges := edges }

def reducedCost (graph : Assignment) (node : Nat) (edge : Edge) : Fallible Int :=
  orError (do
    let value ← checkedI64 (edge.cost + graph.potentials node)
    let value ← checkedI64 (value - graph.potentials edge.target)
    if 0 ≤ value then pure value else none) "invalid reduced assignment cost"

/-! ## Direct augmentation -/

/-- The scan of `direct_column` over the edges of `row` from `index` on. -/
def directColumnFrom (graph : Assignment) (row : Nat) : List Edge → (index : Nat) → Fallible (Option (Nat × Nat))
  | [], _ => pure none
  | edge :: rest, index =>
    if ¬ edge.available ∨ edge.target = graph.source then directColumnFrom graph row rest (index + 1)
    else do
      let reduced ← graph.reducedCost row edge
      if reduced ≠ 0 then directColumnFrom graph row rest (index + 1)
      else
        let columnEdge := (graph.edges edge.target).length - 1
        let terminal ← orPanic (graph.edges edge.target)[columnEdge]?
        if ¬ terminal.available then directColumnFrom graph row rest (index + 1)
        else
          let reduced ← graph.reducedCost edge.target terminal
          if reduced = 0 then pure (some (index, columnEdge)) else directColumnFrom graph row rest (index + 1)

def directColumn (graph : Assignment) (row : Nat) : Fallible (Option (Nat × Nat)) :=
  graph.directColumnFrom row (graph.edges row) 0

/-- One source edge of the loop of `augment_direct`, with the count of matched rows. -/
def augmentDirectEdge (s : Assignment × Nat) (sourceEdge : Nat) : Fallible (Assignment × Nat) := do
  let (graph, matched) := s
  let edge ← orPanic (graph.edges graph.source)[sourceEdge]?
  if ¬ edge.available then pure s
  else
    let reduced ← graph.reducedCost graph.source edge
    if reduced ≠ 0 then pure s
    else
      let row := edge.target
      match ← graph.directColumn row with
      | none => pure s
      | some (rowEdge, columnEdge) =>
        let first ← orPanic (graph.edges row)[rowEdge]?
        let column := first.target
        let graph ← orPanic (graph.reverseEdge graph.source sourceEdge)
        let graph ← orPanic (graph.reverseEdge row rowEdge)
        let graph ← orPanic (graph.reverseEdge column columnEdge)
        pure (graph, matched + 1)

/-- Reverse every source, row, column, sink path of reduced cost zero. -/
def augmentDirect (graph : Assignment) : Fallible (Assignment × Nat) :=
  (List.range (graph.edges graph.source).length).foldlM augmentDirectEdge (graph, 0)

/-! ## Shortest augmenting path -/

/-- `i64::MAX`, the distance of a node not reached. -/
def unreached : Int := i64Limit - 1

/-- The search of `augment`: distances, the edge each node was reached by, and the heap. -/
structure Search where
  distance : Nat → Int
  previous : Nat → Option (Nat × Nat)
  queue : List (Int × Nat)

def entryLe (a b : Int × Nat) : Bool := a.1 < b.1 ∨ (a.1 = b.1 ∧ a.2 ≤ b.2)

def smallest : List (Int × Nat) → Option (Int × Nat)
  | [] => none
  | entry :: rest =>
    match smallest rest with
    | none => some entry
    | some other => some (if entryLe entry other then entry else other)

def relaxEdge (graph : Assignment) (node : Nat) (cost : Int) (search : Search) (indexed : Edge × Nat) :
    Fallible Search := do
  let (edge, index) := indexed
  if ¬ edge.available then pure search
  else
    let reduced ← graph.reducedCost node edge
    let candidate ← orError (checkedI64 (cost + reduced)) "assignment distance overflow"
    if candidate < search.distance edge.target then
      pure {
        distance := Function.update search.distance edge.target candidate
        previous := Function.update search.previous edge.target (some (node, index))
        queue := (candidate, edge.target) :: search.queue }
    else pure search

def relaxNeighbors (graph : Assignment) (node : Nat) (cost : Int) (search : Search) : Fallible Search :=
  (graph.edges node).zipIdx.foldlM (graph.relaxEdge node cost) search

def searchTurn (graph : Assignment) (search : Search) : Fallible (Ctl Search Search) :=
  match smallest search.queue with
  | none => pure (.done search)
  | some (cost, node) =>
    let popped := { search with queue := search.queue.erase (cost, node) }
    if cost ≠ search.distance node then pure (.next popped)
    else do
      let search ← graph.relaxNeighbors node cost popped
      pure (.next search)

/-- How many half-edges there are, which bounds the pushes of a search. -/
def edgeCount (graph : Assignment) : Nat := ∑ node ∈ Finset.range (graph.sink + 1), (graph.edges node).length

def runSearch (graph : Assignment) : Fallible Search :=
  loopFallible graph.searchTurn (graph.edgeCount + 2)
    { distance := Function.update (fun _ => unreached) graph.source 0
      previous := fun _ => none
      queue := [(0, graph.source)] }

def raisePotentials (graph : Assignment) (search : Search) : Fallible Assignment := do
  let potential (node : Nat) : Option Int :=
    if search.distance node ≠ unreached then checkedI64 (graph.potentials node + search.distance node)
    else some (graph.potentials node)
  if (List.range (graph.sink + 1)).all fun node => (potential node).isSome then
    pure { graph with potentials := fun node => (potential node).getD 0 }
  else throw "assignment potential overflow"

/-- One edge of the path, followed back from `node`. -/
def pathTurn (previous : Nat → Option (Nat × Nat)) (s : Assignment × Nat) :
    Fallible (Ctl (Assignment × Nat) Assignment) := do
  let (graph, node) := s
  if node = graph.source then pure (.done graph)
  else
    let (parent, index) ← orError (previous node) "broken assignment augmenting path"
    let graph ← orPanic (graph.reverseEdge parent index)
    pure (.next (graph, parent))

def augment (graph : Assignment) : Fallible (Assignment × Bool) := do
  let search ← graph.runSearch
  if (search.previous graph.sink).isNone then pure (graph, false)
  else
    let graph ← graph.raisePotentials search
    let graph ← loopFallible (pathTurn search.previous) (graph.sink + 2) (graph, graph.sink)
    pure (graph, true)

end Assignment

/-! ## The matching -/

def addRow (rows : List (List SignatureEntry)) (columns maximum : Nat) (graph : Assignment)
    (indexed : List SignatureEntry × Nat) : Fallible Assignment :=
  let (entries, row) := indexed
  entries.foldlM (fun graph entry =>
    if entry.column ≥ columns then throw "signature column is outside the variable view"
    else pure (graph.addEdge row (rows.length + entry.column) (maximum - entry.order)))
    (graph.addEdge graph.source row 0)

def assignmentGraph (rows : List (List SignatureEntry)) (columns : Nat) : Fallible Assignment := do
  let source ← orError (checkedUsize (rows.length + columns)) "assignment size overflow"
  let sink ← orError (checkedUsize (source + 1)) "assignment size overflow"
  let _ ← orError (checkedUsize (sink + 1)) "assignment size overflow"
  let maximum := (rows.flatten.map (·.order)).foldl max 0
  let graph ← rows.zipIdx.foldlM (addRow rows columns maximum) ⟨fun _ => [], fun _ => 0, source, sink⟩
  pure ((List.range columns).foldl (fun graph column => graph.addEdge (rows.length + column) sink 0) graph)

/-- One turn of the loop of `maximum_weight_matching`. -/
def matchingTurn (limit : Nat) (s : Assignment × Nat) : Fallible (Ctl (Assignment × Nat) Assignment) := do
  let (graph, matched) := s
  if matched ≥ limit then pure (.done graph)
  else
    let (graph, direct) ← graph.augmentDirect
    let matched := matched + direct
    if matched = limit then pure (.done graph)
    else
      let (graph, augmented) ← graph.augment
      pure (if augmented then .next (graph, matched + 1) else .done graph)

/-- The column whose edge from `row` is in use. -/
def matchedColumn (graph : Assignment) (rowCount row : Nat) : Option Nat :=
  ((graph.edges row).find? fun edge => !edge.available && (rowCount ≤ edge.target ∧ edge.target < graph.source)).map
    (·.target - rowCount)

def maximumWeightMatching (rows : List (List SignatureEntry)) (columns : Nat) : Fallible (List (Option Nat)) := do
  let graph ← assignmentGraph rows columns
  let limit := min rows.length columns
  let graph ← loopFallible (matchingTurn limit) (limit + 1) (graph, 0)
  pure ((List.range rows.length).map (matchedColumn graph rows.length))

end Rumoca.Structural
