import Rumoca.Flatten.Vcg
/-!
# The equations of a potential connection set

A connection set of overconstrained record fields falls into the groups that
the selected optional edges join. A group keeps a chain of equalities. Groups
are related through the broken optional edges between their records, each
replaced by one `equalityConstraint`, and what those leave apart through one
ordinary equality with the first group.
-/

namespace Rumoca.Flatten

/-- The fields of a flat variable that name its overconstrained record. -/
structure RecordFields where
  isOverconstrained : Bool
  ocRecordPath : Option Node
  ocEqConstraintSize : Option Nat

abbrev RecordTable := VarName → Option RecordFields

def overconstrainedRecordInfo (flat : RecordTable) (name : VarName) : Option (Node × Nat) := do
  let var ← flat name
  if var.isOverconstrained then
    let path ← var.ocRecordPath
    let size ← var.ocEqConstraintSize
    pure (path, size)
  else none

/-- The root above a record among the selected edges; the inner `none` is a record outside the graph. -/
def SelectedSpanningForest.representative (s : SelectedSpanningForest) (record : Node) :
    Option (SelectedSpanningForest × Option Nat) :=
  match s.selected.index record with
  | none => some (s, none)
  | some index => do
    let (selected, root) ← s.selected.find index
    pure ({ s with selected }, some root)

/-- One relation emitted for a potential connection set. -/
inductive EqualityLink where
  | equal (lhs rhs : Nat)
  | constraint (lhsRecord rhsRecord : Node) (constraintSize : Nat)
deriving DecidableEq, Repr

/-! ## The groups of a set -/

/-- A union-find over the groups of one set; a group enters it when it is looked up. -/
structure GroupQuotient where
  parent : Nat → Option Nat

namespace GroupQuotient

def empty : GroupQuotient := ⟨fun _ => none⟩

def find : (fuel : Nat) → GroupQuotient → Nat → Option (GroupQuotient × Nat)
  | 0, _, _ => none
  | fuel + 1, q, group => do
    let parent := (q.parent group).getD group
    let q : GroupQuotient := ⟨Function.update q.parent group (some parent)⟩
    if parent = group then return (q, group)
    let (q, root) ← find fuel q parent
    return (⟨Function.update q.parent group (some root)⟩, root)

/-- Join two groups; `false` when they were joined already. -/
def join (q : GroupQuotient) (lhs rhs : Nat) : Option (GroupQuotient × Bool) := do
  let (q, lhs) ← find (lhs + 1) q lhs
  let (q, rhs) ← find (rhs + 1) q rhs
  if lhs = rhs then return (q, false)
  return (⟨Function.update q.parent (max lhs rhs) (some (min lhs rhs))⟩, true)

end GroupQuotient

/-- A member of a set. Without a record in the graph it has a group of its own. -/
structure SetMember where
  record : Option (Node × Nat)
  group : Nat

def setMember (flat : RecordTable) (outside : Nat) (tree : SelectedSpanningForest) (index : Nat) (name : VarName) :
    Option (SelectedSpanningForest × SetMember) :=
  match overconstrainedRecordInfo flat name with
  | none => some (tree, ⟨none, outside + index⟩)
  | some (record, width) => do
    let (tree, group) ← tree.representative record
    match group with
    | none => pure (tree, ⟨none, outside + index⟩)
    | some group => pure (tree, ⟨some (record, width), group⟩)

def setMembers (flat : RecordTable) (tree : SelectedSpanningForest) (names : List VarName) :
    Option (SelectedSpanningForest × List SetMember) :=
  names.zipIdx.foldlM (fun (s : SelectedSpanningForest × List SetMember) (name, index) => do
    let (tree, member) ← setMember flat tree.selected.parent.length s.1 index name
    pure (tree, s.2 ++ [member])) (tree, [])

/-- The chains of the groups so far, with the groups in the order of their first members. -/
structure Grouping where
  links : List EqualityLink
  groupOrder : List Nat
  firstMember : Nat → Option Nat
  lastMember : Nat → Option Nat

def Grouping.turn (s : Grouping) (member : SetMember) (index : Nat) : Grouping :=
  let lastMember := Function.update s.lastMember member.group (some index)
  match s.lastMember member.group with
  | some previous => { s with links := s.links ++ [.equal previous index], lastMember }
  | none =>
    { s with
      groupOrder := s.groupOrder ++ [member.group]
      firstMember := Function.update s.firstMember member.group (some index)
      lastMember }

def Grouping.build (members : List SetMember) : Grouping :=
  members.zipIdx.foldl (fun s (member, index) => s.turn member index) ⟨[], [], fun _ => none, fun _ => none⟩

def recordWidths (members : List SetMember) : Node → Option Nat :=
  (members.filterMap (·.record)).foldl (fun widths (record, width) => Function.update widths record (some width))
    fun _ => none

/-! ## The links of a set -/

def mismatchedWidths (lhs rhs : Node) (lhsWidth rhsWidth : Nat) : String :=
  "overconstrained record edge `" ++ lhs ++ "`--`" ++ rhs ++ "` has mismatched equalityConstraint widths " ++
    toString lhsWidth ++ " and " ++ toString rhsWidth

/-- The broken edges in turn. `accepted` lists those that join two groups; the code does not keep them. -/
structure Joining where
  tree : SelectedSpanningForest
  emittedConstraints : List (Node × Node)
  quotient : GroupQuotient
  links : List EqualityLink
  accepted : List Edge

/-- The constraint of an edge, unless its width is zero or its pair of records has one. -/
def Joining.emit (s : Joining) (edge : Edge) (width : Nat) : Joining :=
  if 0 < width ∧ normalizeEdgeKey edge.1 edge.2 ∉ s.emittedConstraints then
    { s with
      emittedConstraints := normalizeEdgeKey edge.1 edge.2 :: s.emittedConstraints
      links := s.links ++ [.constraint edge.1 edge.2 width] }
  else s

/-- Join the groups of the broken edges. An error stops the pass, and the state stays as it is. -/
def joinBroken (widths : Node → Option Nat) : Joining → List Edge → Option (Joining × Option String)
  | s, [] => some (s, none)
  | s, edge :: rest => do
    let (tree, lhsGroup) ← s.tree.representative edge.1
    let (tree, rhsGroup) ← tree.representative edge.2
    match lhsGroup, rhsGroup with
    | some lhsGroup, some rhsGroup =>
      let (quotient, joined) ← s.quotient.join lhsGroup rhsGroup
      if joined then
        let s := { s with tree, quotient, accepted := s.accepted ++ [edge] }
        let lhsWidth ← widths edge.1
        let rhsWidth ← widths edge.2
        if lhsWidth = rhsWidth then joinBroken widths (s.emit edge lhsWidth) rest
        else pure (s, some (mismatchedWidths edge.1 edge.2 lhsWidth rhsWidth))
      else joinBroken widths { s with tree, quotient } rest
    | _, _ => joinBroken widths { s with tree } rest

def anchorGroup (firstMember : Nat → Option Nat) (anchor : Nat) (s : GroupQuotient × List EqualityLink) (group : Nat) :
    Option (GroupQuotient × List EqualityLink) := do
  let (quotient, joined) ← s.1.join anchor group
  if joined then
    let lhs ← firstMember anchor
    let rhs ← firstMember group
    pure (quotient, s.2 ++ [.equal lhs rhs])
  else pure (quotient, s.2)

/-- What a call returns, with the broken edges whose joins it accepted. -/
structure EmittedLinks where
  links : List EqualityLink
  accepted : List Edge

structure OverconstrainedEquationForest where
  tree : SelectedSpanningForest
  emittedConstraints : List (Node × Node)

namespace OverconstrainedEquationForest

def new (tree : SelectedSpanningForest) : OverconstrainedEquationForest := ⟨tree, []⟩

def partitionedLinks (self : OverconstrainedEquationForest) (members : List SetMember) (broken : List Edge) :
    Option (OverconstrainedEquationForest × Except String EmittedLinks) := do
  let groups := Grouping.build members
  let (s, error) ← joinBroken (recordWidths members)
    ⟨self.tree, self.emittedConstraints, .empty, groups.links, []⟩ broken
  let self : OverconstrainedEquationForest := ⟨s.tree, s.emittedConstraints⟩
  match error with
  | some message => return (self, .error message)
  | none =>
    match groups.groupOrder with
    | [] => return (self, .ok ⟨s.links, s.accepted⟩)
    | anchor :: rest =>
      let (_, links) ← rest.foldlM (anchorGroup groups.firstMember anchor) (s.quotient, s.links)
      return (self, .ok ⟨links, s.accepted⟩)

def chain (count : Nat) : List EqualityLink := (List.range' 1 (count - 1)).map fun rhs => .equal (rhs - 1) rhs

def memberRecords (members : List SetMember) : List Node := members.filterMap fun member => member.record.map (·.1)

def equalityLinks (self : OverconstrainedEquationForest) (flat : RecordTable) (names : List VarName) :
    Option (OverconstrainedEquationForest × Except String EmittedLinks) := do
  let (tree, members) ← setMembers flat self.tree names
  let self : OverconstrainedEquationForest := { self with tree }
  let records := memberRecords members
  let broken := tree.broken.filter fun edge => edge.1 ∈ records ∧ edge.2 ∈ records
  if broken.isEmpty then return (self, .ok ⟨chain names.length, []⟩)
  self.partitionedLinks members broken

def equalityLinksOfSets : OverconstrainedEquationForest → List (RecordTable × List VarName) →
    Option (OverconstrainedEquationForest × List (Except String EmittedLinks))
  | self, [] => some (self, [])
  | self, (flat, names) :: sets => do
    let (self, result) ← self.equalityLinks flat names
    let (self, results) ← equalityLinksOfSets self sets
    pure (self, result :: results)

end OverconstrainedEquationForest

end Rumoca.Flatten
