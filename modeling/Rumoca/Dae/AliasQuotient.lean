import Mathlib.Algebra.Group.Basic
import Mathlib.Data.List.Sort
import Rumoca.Lib.Entries
import Rumoca.Lib.Loop
/-!
# The alias quotient

Alias edges `first = ±second` form classes. An acyclic class with at most one
anchored member is quotiented onto a representative: its other members, states
apart, are read through `±representative`, and each keeps the edge by which the
search found it as its definition.
-/

namespace Rumoca.Dae

open Rumoca.Lib

/-- One side of an alias edge: the declaration and the source term reading it. -/
structure AliasTerm where
  var : Nat
  expression : Nat
deriving DecidableEq, Repr

/-- One alias edge: `first = ±second` stated by one continuous owner body. -/
structure AliasEdge where
  owner : Nat
  body : Option Nat
  residual : Nat
  first : AliasTerm
  second : AliasTerm
  negated : Bool
deriving DecidableEq, Repr

def AliasEdge.ends (e : AliasEdge) : Nat × Nat := (e.first.var, e.second.var)

/-- Eligibility and anchoring of a declaration. -/
structure MemberFacts where
  eligible : Bool
  state : Bool
  formal : Bool
  avoided : Bool
  anchored : Bool
deriving DecidableEq, Repr

/-- How one eliminated member reads its class representative. -/
structure AliasSubstitution where
  representative : Nat
  negated : Bool
deriving DecidableEq, Repr

/-- The spanning-tree edge that becomes one eliminated member's definition. -/
structure AliasDefinition where
  member : Nat
  access : Nat
  body : Option Nat
  residual : Nat
deriving DecidableEq, Repr

/-- A substitution for each eliminated declaration, and the definition that each keeps, by owner. -/
structure AliasPlan where
  substitutions : List (Option AliasSubstitution)
  definitions : List (Nat × AliasDefinition)
deriving Repr

inductive QuotientScope where
  | source | formalDerivatives
deriving DecidableEq, Repr

/-- One connected alias class with its edges. -/
structure AliasClass where
  members : List Nat
  edges : List AliasEdge
  cyclic : Bool
deriving Repr

inductive AliasRefusal where
  | cycle | severalAnchors | anchorIsNotState
deriving DecidableEq, Repr

/-! ## Classes -/

/-- One turn of `find`: point the node at its grandparent, and go there. -/
def findTurn (s : List Nat × Nat) : Option (Ctl (List Nat × Nat) (List Nat × Nat)) := do
  let parent ← s.1[s.2]?
  if parent = s.2 then return .done s
  let grandparent ← s.1[parent]?
  return .next (s.1.set s.2 grandparent, grandparent)

def find (parent : List Nat) (node : Nat) : Option (List Nat × Nat) :=
  loop findTurn (parent.length + 1) (parent, node)

/-- The parents, and the roots at which an edge closed a cycle. -/
structure Unions where
  parent : List Nat
  cyclic : List Nat

def Unions.turn (s : Unions) (edge : AliasEdge) : Option Unions := do
  let (parent, first) ← find s.parent edge.first.var
  let (parent, second) ← find parent edge.second.var
  if first = second then return ⟨parent, s.cyclic ++ [first]⟩
  return ⟨parent.set (max first second) (min first second), s.cyclic⟩

def cyclicTurn (s : Unions) (root : Nat) : Option Unions := do
  let (parent, root) ← find s.parent root
  return ⟨parent, s.cyclic ++ [root]⟩

/-- The parents, and the edges of each class by its root. -/
structure Groups where
  parent : List Nat
  edges : List (Nat × List AliasEdge)

def Groups.turn (s : Groups) (edge : AliasEdge) : Option Groups := do
  let (parent, root) ← find s.parent edge.first.var
  return ⟨parent, pushEntry s.edges root edge⟩

def ordinalSet (ordinals : List Nat) : List Nat := ordinals.dedup.insertionSort (· ≤ ·)

def classOf (cyclic : List Nat) (group : Nat × List AliasEdge) : AliasClass where
  members := ordinalSet (group.2.flatMap fun edge => [edge.first.var, edge.second.var])
  edges := group.2
  cyclic := group.1 ∈ cyclic

/-- Union the edges in owner order, marking each class that closes a cycle. -/
def classes (declarations : Nat) (edges : List AliasEdge) : Option (List AliasClass) := do
  let unions ← edges.foldlM Unions.turn ⟨List.range declarations, []⟩
  let cyclic ← unions.cyclic.foldlM cyclicTurn ⟨unions.parent, []⟩
  let groups ← edges.foldlM Groups.turn ⟨cyclic.parent, []⟩
  return (groups.edges.insertionSort (·.1 ≤ ·.1)).map (classOf cyclic.cyclic)

def admittedEdges (members : List MemberFacts) (edges : List AliasEdge) (scope : QuotientScope) : List AliasEdge :=
  match scope with
  | .source => edges
  | .formalDerivatives =>
    edges.filter fun edge =>
      (members[edge.first.var]?).any (·.formal) || (members[edge.second.var]?).any (·.formal)

/-! ## Representatives -/

/-- The unique anchored member, else the lowest state not avoided, else the lowest state, else the lowest member. -/
def representative (facts : Nat → MemberFacts) (class_ : AliasClass) : Except AliasRefusal (Option Nat) :=
  if class_.cyclic then .error .cycle
  else
    let hasState := class_.members.any fun member => (facts member).state
    match class_.members.filter fun member => (facts member).anchored with
    | _ :: _ :: _ => .error .severalAnchors
    | [anchor] => if !(facts anchor).state && hasState then .error .anchorIsNotState else .ok (some anchor)
    | [] =>
      .ok ((class_.members.find? fun member => (facts member).state && !(facts member).avoided).or
        ((class_.members.find? fun member => (facts member).state).or class_.members.head?))

/-! ## Quotients -/

/-- What a plan gets for one eliminated member. -/
structure Assignment where
  member : Nat
  substitution : AliasSubstitution
  owner : Nat
  definition : AliasDefinition
deriving Repr

/-- The members reached with their signs, those to search from, and what the plan gets. -/
structure Orientation where
  negated : Nat → Option Bool
  pending : List Nat
  assignments : List Assignment

def adjacency (edges : List AliasEdge) (node : Nat) : List (Nat × AliasEdge) :=
  edges.flatMap fun edge =>
    (if edge.first.var = node then [(edge.second.var, edge)] else []) ++
      (if edge.second.var = node then [(edge.first.var, edge)] else [])

def assignmentOf (representative : Nat) (next : Nat) (negated : Bool) (edge : AliasEdge) : Assignment where
  member := next
  substitution := ⟨representative, negated⟩
  owner := edge.owner
  definition :=
    { member := next
      access := if edge.first.var = next then edge.first.expression else edge.second.expression
      body := edge.body
      residual := edge.residual }

def Orientation.reach (facts : Nat → MemberFacts) (representative : Nat) (parity : Bool) (s : Orientation)
    (neighbor : Nat × AliasEdge) : Orientation :=
  let (next, edge) := neighbor
  if (s.negated next).isSome then s
  else
    let nextNegated := parity ^^ edge.negated
    { negated := Function.update s.negated next (some nextNegated)
      pending := s.pending ++ [next]
      assignments :=
        if (facts next).state then s.assignments
        else s.assignments ++ [assignmentOf representative next nextNegated edge] }

def Orientation.turn (facts : Nat → MemberFacts) (edges : List AliasEdge) (representative : Nat) (s : Orientation) :
    Option (Ctl Orientation (List Assignment)) :=
  match s.pending with
  | [] => some (.done s.assignments)
  | node :: rest =>
    match s.negated node with
    | none => none
    | some parity =>
      some (.next ((adjacency edges node).foldl (Orientation.reach facts representative parity)
        { s with pending := rest }))

def quotientClass (facts : Nat → MemberFacts) (class_ : AliasClass) (representative : Nat) :
    Option (List Assignment) :=
  loop (Orientation.turn facts class_.edges representative) (class_.members.length + 2)
    ⟨Function.update (fun _ => none) representative (some false), [representative], []⟩

def classAssignments (facts : Nat → MemberFacts) (class_ : AliasClass) : Option (List Assignment) :=
  match representative facts class_ with
  | .error _ => some []
  | .ok none => none
  | .ok (some representative) => quotientClass facts class_ representative

def factsOf (members : List MemberFacts) (member : Nat) : MemberFacts :=
  (members[member]?).getD ⟨false, false, false, false, false⟩

def planAssignments (members : List MemberFacts) (edges : List AliasEdge) (scope : QuotientScope) :
    Option (List Assignment) := do
  let classes ← classes members.length (admittedEdges members edges scope)
  let assignments ← classes.mapM (classAssignments (factsOf members))
  return assignments.flatten

def AliasPlan.assign (plan : AliasPlan) (a : Assignment) : AliasPlan where
  substitutions := plan.substitutions.set a.member (some a.substitution)
  definitions := insertEntry plan.definitions a.owner a.definition

def derivePlan (members : List MemberFacts) (edges : List AliasEdge) (scope : QuotientScope) : Option AliasPlan := do
  let assignments ← planAssignments members edges scope
  return assignments.foldl AliasPlan.assign ⟨List.replicate members.length none, []⟩

/-! ## The rebuilt system -/

section
variable {V : Type*} [InvolutiveNeg V]

abbrev Valuation (V : Type*) := Nat → V

abbrev Owner (V : Type*) := Valuation V → Prop

def signed (negated : Bool) (x : V) : V := if negated then -x else x

/-- `first = ±second`. -/
def AliasEdge.Holds (e : AliasEdge) (v : Valuation V) : Prop := v e.first.var = signed e.negated (v e.second.var)

def AliasPlan.read (plan : AliasPlan) (v : Valuation V) : Valuation V := fun var =>
  match plan.substitutions[var]? with
  | some (some s) => signed s.negated (v s.representative)
  | _ => v var

/-- `alias_definition` in place of an owner that is a definition; the other owners read through the plan. -/
def AliasPlan.rebuildOwner (plan : AliasPlan) (ordinal : Nat) (owner : Owner V) : Owner V :=
  match plan.definitions.lookup ordinal with
  | some definition => fun v => v definition.member = plan.read v definition.member
  | none => fun v => owner (plan.read v)

def AliasPlan.rebuild (plan : AliasPlan) (owners : List (Owner V)) : List (Owner V) :=
  owners.mapIdx fun ordinal owner => plan.rebuildOwner ordinal owner

def Solves (owners : List (Owner V)) (v : Valuation V) : Prop := ∀ owner ∈ owners, owner v

end

end Rumoca.Dae
