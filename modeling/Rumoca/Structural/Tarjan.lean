import Rumoca.Lib.Loop
import Mathlib.Tactic
/-!
# Tarjan's algorithm on an explicit stack

The depth-first search of `tarjan_scc`: one frame per open node with the
position its adjacency list has been scanned to, and the lowlink of a child
folded into its parent when the child is popped. The per-node vectors are
total maps here; a vector of `n` entries is read only below `n`.
-/

namespace Rumoca.Structural

open Rumoca.Lib

/-- One node on the depth-first stack and how far its neighbours are scanned. -/
structure TarjanFrame where
  node : Nat
  cursor : Nat
deriving DecidableEq, Repr

/-- Both stacks have their top at the head. -/
structure TarjanState where
  indexCounter : Nat
  stack : List Nat
  frames : List TarjanFrame
  onStack : Nat → Bool
  index : Nat → Option Nat
  lowlink : Nat → Nat
  sccs : List (List Nat)

/-- The neighbours of `node`; a node without a list has none. -/
def neighbors (adj : List (List Nat)) (node : Nat) : List Nat := (adj[node]?).getD []

namespace TarjanState

def new : TarjanState where
  indexCounter := 0
  stack := []
  frames := []
  onStack _ := false
  index _ := none
  lowlink _ := 0
  sccs := []

def enter (s : TarjanState) (node : Nat) : TarjanState :=
  { s with
    index := Function.update s.index node (some s.indexCounter)
    lowlink := Function.update s.lowlink node s.indexCounter
    indexCounter := s.indexCounter + 1
    stack := node :: s.stack
    onStack := Function.update s.onStack node true }

def pushFrame (s : TarjanState) (node : Nat) : TarjanState :=
  { s with frames := ⟨node, 0⟩ :: s.frames }

def setCursor (s : TarjanState) (cursor : Nat) : TarjanState :=
  match s.frames with
  | [] => s
  | frame :: frames => { s with frames := ⟨frame.node, cursor⟩ :: frames }

def lowerLink (s : TarjanState) (node value : Nat) : TarjanState :=
  { s with lowlink := Function.update s.lowlink node (min (s.lowlink node) value) }

/-- The loop of `next_child` over the neighbours from `cursor` on. -/
def scanNeighbors (s : TarjanState) (node : Nat) : List Nat → Nat → TarjanState × Option Nat
  | [], cursor => (s.setCursor cursor, none)
  | w :: rest, cursor =>
    match s.index w with
    | none => (s.setCursor (cursor + 1), some w)
    | some childIndex =>
      scanNeighbors (if s.onStack w then s.lowerLink node childIndex else s) node rest (cursor + 1)

/-- Scan the frame's neighbours from its cursor and answer the first unvisited one. -/
def nextChild (s : TarjanState) (adj : List (List Nat)) (frame : TarjanFrame) : TarjanState × Option Nat :=
  scanNeighbors s frame.node ((neighbors adj frame.node).drop frame.cursor) frame.cursor

def descend (s : TarjanState) (child : Nat) : TarjanState := (s.enter child).pushFrame child

/-- The loop of `pop_scc`; `none` when the stack runs out before the root. -/
def popUntil (root : Nat) : List Nat → (Nat → Bool) → List Nat → Option (List Nat × (Nat → Bool) × List Nat)
  | [], _, _ => none
  | w :: stack, onStack, scc =>
    let onStack := Function.update onStack w false
    if w = root then some (stack, onStack, scc ++ [w]) else popUntil root stack onStack (scc ++ [w])

def popScc (s : TarjanState) (root : Nat) : Option TarjanState := do
  let (stack, onStack, scc) ← popUntil root s.stack s.onStack []
  pure { s with stack := stack, onStack := onStack, sccs := s.sccs ++ [scc] }

def propagate (s : TarjanState) (node : Nat) : TarjanState :=
  match s.frames with
  | [] => s
  | parent :: _ => s.lowerLink parent.node (s.lowlink node)

/-- Pop `node`; `none` where the source's `expect` fails. -/
def finishNode (s : TarjanState) (node : Nat) : Option TarjanState := do
  let s := { s with frames := s.frames.tail }
  let index ← s.index node
  let s ← if s.lowlink node = index then s.popScc node else some s
  pure (s.propagate node)

/-- One turn of the loop of `strongconnect`. -/
def strongconnectStep (adj : List (List Nat)) (s : TarjanState) : Option (Ctl TarjanState TarjanState) :=
  match s.frames with
  | [] => some (.done s)
  | frame :: _ =>
    match s.nextChild adj frame with
    | (s, some child) => some (.next (s.descend child))
    | (s, none) => (s.finishNode frame.node).map .next

/-- Every turn of the loop opens or closes one of the `n` nodes. -/
def strongconnect (n : Nat) (adj : List (List Nat)) (s : TarjanState) (root : Nat) : Option TarjanState :=
  loop (strongconnectStep adj) (2 * n + 2) ((s.enter root).pushFrame root)

end TarjanState

/-- The strongly connected components of `0..n`, in the order they are closed. -/
def tarjanScc (n : Nat) (adj : List (List Nat)) : Option (List (List Nat)) := do
  let s ← (List.range n).foldlM (fun s v =>
    if (s.index v).isNone then s.strongconnect n adj v else some s) TarjanState.new
  pure s.sccs

example : tarjanScc 8 [[1], [2, 3], [4], [], [5], [2], [7], []] =
    some [[5, 4, 2], [3], [1], [0], [7], [6]] := by decide

end Rumoca.Structural
