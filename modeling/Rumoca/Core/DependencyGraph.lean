import Rumoca.Lib.Loop
import Mathlib.Tactic
/-!
# Components of a dependency graph, dependencies first

The two walks of `dependency_first_sccs`: a depth-first search that lists the
nodes as they are finished, and a search of the reversed edges from the last
node finished. `seen` is a total map here; the vector of the source is read
only below the number of nodes. `none` is an index out of bounds.
-/

namespace Rumoca.Core

open Rumoca.Lib

structure DependencyScc where
  members : List Nat
  recursive : Bool
deriving DecidableEq, Repr

structure DependencyGraphError where
  source : Nat
  target : Nat
  nodeCount : Nat
deriving DecidableEq, Repr

/-- The first target out of range, in the order of the nodes from `source` on. -/
def badTarget (nodeCount : Nat) : List (List Nat) → (source : Nat) → Option DependencyGraphError
  | [], _ => none
  | targets :: rest, source =>
    match targets.find? (nodeCount ≤ ·) with
    | some target => some ⟨source, target, nodeCount⟩
    | none => badTarget nodeCount rest (source + 1)

def checkTargets (dependencies : List (List Nat)) : Except DependencyGraphError Unit :=
  match badTarget dependencies.length dependencies 0 with
  | some error => .error error
  | none => .ok ()

/-! ## The order in which nodes are finished -/

/-- The stack has its top at the head; a frame holds the next edge of its node to follow. -/
structure FinishState where
  seen : Nat → Bool
  stack : List (Nat × Nat)
  finished : List Nat

def pushUnseen (s : FinishState) (next : Nat) : FinishState :=
  if s.seen next then s
  else { s with seen := Function.update s.seen next true, stack := (next, 0) :: s.stack }

/-- One turn of the `while let` of `finish_order`. -/
def finishTurn (edges : List (List Nat)) (s : FinishState) : Option (Ctl FinishState FinishState) :=
  match s.stack with
  | [] => some (.done s)
  | (node, nextEdge) :: below => do
    let targets ← edges[node]?
    match targets[nextEdge]? with
    | some next => pure (.next (pushUnseen { s with stack := (node, nextEdge + 1) :: below } next))
    | none => pure (.next { s with finished := s.finished ++ [node], stack := below })

/-- Every turn follows an edge or finishes a node, once. -/
def walkFuel (edges : List (List Nat)) : Nat := edges.flatten.length + edges.length + 1

def finishFrom (edges : List (List Nat)) (s : FinishState) (start : Nat) : Option FinishState :=
  if s.seen start then some s
  else loop (finishTurn edges) (walkFuel edges)
    { s with seen := Function.update s.seen start true, stack := [(start, 0)] }

def finishOrder (edges : List (List Nat)) : Option (List Nat) := do
  let s ← (List.range edges.length).foldlM (finishFrom edges) ⟨fun _ => false, [], []⟩
  pure s.finished

/-! ## Components along the reversed edges -/

/-- Enter `caller` under each of its dependencies. -/
def transposeRow (transposed : List (List Nat)) (row : List Nat × Nat) : List (List Nat) :=
  row.1.foldl (fun transposed dependency => transposed.modify dependency (· ++ [row.2])) transposed

def transpose (edges : List (List Nat)) : List (List Nat) :=
  edges.zipIdx.foldl transposeRow (List.replicate edges.length [])

structure CollectState where
  seen : Nat → Bool
  stack : List Nat
  members : List Nat

def CollectState.see (s : CollectState) (next : Nat) : CollectState :=
  if s.seen next then s
  else { s with seen := Function.update s.seen next true, stack := next :: s.stack }

def collectTurn (edges : List (List Nat)) (s : CollectState) : Option (Ctl CollectState CollectState) :=
  match s.stack with
  | [] => some (.done s)
  | node :: below => do
    let targets ← edges[node]?
    pure (.next (targets.reverse.foldl CollectState.see { s with stack := below, members := s.members ++ [node] }))

def collectComponent (start : Nat) (edges : List (List Nat)) (seen : Nat → Bool) : Option (List Nat × (Nat → Bool)) := do
  let s ← loop (collectTurn edges) (edges.length + 1) ⟨Function.update seen start true, [start], []⟩
  pure (s.members, s.seen)

/-- A node that stands in its own dependency list makes even a single member recursive. -/
def sccOf (dependencies : List (List Nat)) (members : List Nat) : Option DependencyScc := do
  let members := members.insertionSort (· ≤ ·)
  let first ← members[0]?
  let targets ← dependencies[first]?
  pure ⟨members, decide (1 < members.length) || targets.any (· == first)⟩

/-- The turn of the second walk for `start`. -/
def visitStart (dependencies transposed : List (List Nat)) (s : (Nat → Bool) × List DependencyScc) (start : Nat) :
    Option ((Nat → Bool) × List DependencyScc) :=
  if s.1 start then some s
  else do
    let (members, seen) ← collectComponent start transposed s.1
    let scc ← sccOf dependencies members
    pure (seen, s.2 ++ [scc])

def dependencyFirstSccs (dependencies : List (List Nat)) : Option (Except DependencyGraphError (List DependencyScc)) :=
  match checkTargets dependencies with
  | .error error => some (.error error)
  | .ok () => do
    let finished ← finishOrder dependencies
    let (_, components) ← finished.reverse.foldlM (visitStart dependencies (transpose dependencies)) (fun _ => false, [])
    pure (.ok components.reverse)

example : dependencyFirstSccs [[1], [2, 3], [], [1], [4]] =
    some (.ok [⟨[2], false⟩, ⟨[1, 3], true⟩, ⟨[0], false⟩, ⟨[4], true⟩]) := by rfl

end Rumoca.Core
