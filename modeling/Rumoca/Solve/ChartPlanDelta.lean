import Rumoca.Solve.ChartDeltaExact
import Rumoca.Solve.ProjectionStages
/-!
# Deltas of an alternate chart's plan

A plan of an alternate chart as differences to the primary system: its scalar
program blocks by programs, spans and output indices, its projection blocks
and refresh plans by stages, the rest whole. A delta is issued when applying
it to the primary gives the plan's programs, targets, blocks and refresh
owners again. What constructs a program block and what validates refresh
owners are parameters.
-/

namespace Rumoca.Solve.ChartDelta

open Lib

deriving instance DecidableEq for ScalarSlot
deriving instance DecidableEq for SolveVariableStorageRun
deriving instance DecidableEq for AlgebraicProjectionBlock
deriving instance DecidableEq for ProjectionStage

/-- A panic (`none`), a delta error, or a result. -/
abbrev Patched := ExceptT ChartDeltaError Option

def issued {α : Type} (x : Option α) : Patched α := ExceptT.mk (x.map .ok)

def patchedBy {T : Type} (delta : VecDelta T) (base : List T) : Patched (List T) := ExceptT.mk (some (delta.apply base))

/-! ## Program blocks -/

structure ScalarProgramBlock (Program Span : Type) where
  programs : List Program
  programSpans : List Span
  outputIndices : List Nat

/-- A node of scalar programs, or a tensor node. -/
inductive ComputeNode (Program Span Tensor : Type) where
  | scalarPrograms (block : ScalarProgramBlock Program Span)
  | tensor (node : Tensor)

structure ComputeBlock (Program Span Tensor : Type) where
  nodes : List (ComputeNode Program Span Tensor)

inductive ComputeBlockDelta (Program Span Tensor : Type) where
  | rows (programs : VecDelta Program) (programSpans : VecDelta Span) (outputIndices : VecDelta Nat)
  | whole (block : ComputeBlock Program Span Tensor)

section
variable {Program Span Tensor : Type}

def ComputeBlock.fromScalarProgramBlock (block : ScalarProgramBlock Program Span) : ComputeBlock Program Span Tensor :=
  if block.programs.isEmpty then ⟨[]⟩ else ⟨[.scalarPrograms block]⟩

def singleScalarBlock (block : ComputeBlock Program Span Tensor) : Option (ScalarProgramBlock Program Span) :=
  match block.nodes with
  | [.scalarPrograms programs] => some programs
  | _ => none

/-- `with_output_indices`, by the programs, spans and indices it admits. -/
def ScalarProgramBlock.withOutputIndices (admits : ScalarProgramBlock Program Span → Bool) (programs : List Program)
    (programSpans : List Span) (outputIndices : List Nat) : Option (ScalarProgramBlock Program Span) :=
  if admits ⟨programs, programSpans, outputIndices⟩ then some ⟨programs, programSpans, outputIndices⟩ else none

variable [BEq Program] [BEq Span]

def ComputeBlockDelta.diff (base target : ComputeBlock Program Span Tensor) :
    Option (ComputeBlockDelta Program Span Tensor) :=
  match singleScalarBlock base, singleScalarBlock target with
  | some base, some target => do
    pure (.rows (← VecDelta.diff base.programs target.programs) (← VecDelta.diff base.programSpans target.programSpans)
      (← VecDelta.diff base.outputIndices target.outputIndices))
  | _, _ => some (.whole target)

def ComputeBlockDelta.apply (admits : ScalarProgramBlock Program Span → Bool)
    (delta : ComputeBlockDelta Program Span Tensor) (base : ComputeBlock Program Span Tensor) :
    Patched (ComputeBlock Program Span Tensor) :=
  match delta with
  | .whole block => pure block
  | .rows programs programSpans outputIndices => do
    let base := (singleScalarBlock base).getD ⟨[], [], []⟩
    let programs ← patchedBy programs base.programs
    let programSpans ← patchedBy programSpans base.programSpans
    let outputIndices ← patchedBy outputIndices base.outputIndices
    match ScalarProgramBlock.withOutputIndices admits programs programSpans outputIndices with
    | some block => pure (.fromScalarProgramBlock block)
    | none => throw .invalidProgramBlock

/-- Single scalar-program blocks with the same programs, spans and output indices. -/
def sameComputeBlock (a b : ComputeBlock Program Span Tensor) : Bool :=
  match singleScalarBlock a, singleScalarBlock b with
  | some a, some b => a.programs == b.programs && a.programSpans == b.programSpans && a.outputIndices == b.outputIndices
  | _, _ => false

/-- A whole replacement is the target itself; a row delta is checked row by row. -/
def ComputeBlockDelta.reproduces (delta : ComputeBlockDelta Program Span Tensor)
    (applied target : ComputeBlock Program Span Tensor) : Bool :=
  match delta with
  | .whole _ => true
  | .rows _ _ _ => sameComputeBlock applied target

end

/-! ## Projection blocks and row targets -/

/-- The targets of the rows, or the projection blocks that give them. -/
inductive ImplicitRowTargets (Tearing Chart : Type) where
  | explicit (values : List (Option ScalarSlot))
  | projection (blocks : ProjectionBlocks Tearing Chart)

inductive ImplicitRowTargetsWire where
  | explicit (values : List (Option ScalarSlot))
  | projection

section
variable {Tearing Chart : Type}

/-- Blocks are compared by their stages. -/
instance [DecidableEq Tearing] [DecidableEq Chart] : BEq (ProjectionBlocks Tearing Chart) :=
  ⟨fun a b => decide (a.stages = b.stages)⟩

/-- `from_stages` with its errors mapped. -/
def stagesOr (stages : List (ProjectionStage Tearing Chart)) : Patched (ProjectionBlocks Tearing Chart) :=
  ExceptT.mk ((ProjectionBlocks.fromStages stages).run.map fun result =>
    result.mapError fun _ => ChartDeltaError.notFaithful)

namespace ImplicitRowTargets

def wire : ImplicitRowTargets Tearing Chart → ImplicitRowTargetsWire
  | explicit values => .explicit values
  | projection _ => .projection

def fromWire (wire : ImplicitRowTargetsWire) (blocks : ProjectionBlocks Tearing Chart) :
    ImplicitRowTargets Tearing Chart :=
  match wire with
  | .explicit values => explicit values
  | .projection => projection blocks

def len : ImplicitRowTargets Tearing Chart → Nat
  | explicit values => values.length
  | projection blocks => blocks.rowBound

def targetAt (targets : ImplicitRowTargets Tearing Chart) (row : Nat) : Option ScalarSlot :=
  match targets with
  | explicit values => (values[row]?).join
  | projection blocks => blocks.targetAtRow row

def same [DecidableEq Tearing] [DecidableEq Chart] : (a b : ImplicitRowTargets Tearing Chart) → Bool
  | projection a, projection b => a == b
  | explicit a, explicit b => decide (a = b)
  | a, b => a.len == b.len && (List.range a.len).all fun row => decide (a.targetAt row = b.targetAt row)

end ImplicitRowTargets

end

/-! ## Refresh owners -/

abbrev RefreshRowSelection := List Nat

/-- The identity of an issued row sequence: its owner and its number, from one. Zero is not issued. -/
abbrev RefreshSequenceId := Nat

def RefreshSequenceId.issued (owner sequence : Nat) : Option RefreshSequenceId := do
  let owner ← checkedU32 owner
  let sequence ← checkedU32 sequence
  let sequence ← checkedU32 (sequence + 1)
  pure (owner * u32Limit + sequence)

inductive RefreshStage (Tearing Chart : Type) where
  | causalSeedSweep (staticSequence dynamicSequence : RefreshSequenceId) (staticRows dynamicRows : RefreshRowSelection)
  | exactAssignments (staticSequence dynamicSequence : RefreshSequenceId) (staticRows dynamicRows : RefreshRowSelection)
  | projectionBlock (seedSequence : RefreshSequenceId) (blockIndex : Nat) (plan : ProjectionBlocks Tearing Chart)
      (seedRows : RefreshRowSelection)

structure RefreshPlan (Tearing Chart Row : Type) where
  staticCausalSequence : RefreshSequenceId
  dynamicCausalSequence : RefreshSequenceId
  simultaneousPlan : ProjectionBlocks Tearing Chart
  simultaneousBlockIndices : List Nat
  valueProjectionPlan : ProjectionBlocks Tearing Chart
  rows : List Row
  causalSeedRows : RefreshRowSelection
  staticCausalSeedRows : RefreshRowSelection
  dynamicCausalSeedRows : RefreshRowSelection
  valueStages : List (RefreshStage Tearing Chart)
  causalSolutionCertified : Bool

structure ContinuousRefreshOwners (Tearing Chart Row : Type) where
  compactProjection : Option (ProjectionBlocks Tearing Chart)
  algebraic : RefreshPlan Tearing Chart Row
  derivative : RefreshPlan Tearing Chart Row
  root : RefreshPlan Tearing Chart Row
  event : RefreshPlan Tearing Chart Row
  clockEvents : List (RefreshPlan Tearing Chart Row)

section
variable {Tearing Chart Row : Type}

/-- A stage with its sequences numbered from `next`, and the number after them. -/
def RefreshStage.issue (owner next : Nat) : RefreshStage Tearing Chart → Option (RefreshStage Tearing Chart × Nat)
  | .causalSeedSweep _ _ staticRows dynamicRows => do
    let static ← RefreshSequenceId.issued owner next
    let dynamic ← RefreshSequenceId.issued owner (next + 1)
    pure (.causalSeedSweep static dynamic staticRows dynamicRows, next + 2)
  | .exactAssignments _ _ staticRows dynamicRows => do
    let static ← RefreshSequenceId.issued owner next
    let dynamic ← RefreshSequenceId.issued owner (next + 1)
    pure (.exactAssignments static dynamic staticRows dynamicRows, next + 2)
  | .projectionBlock _ blockIndex plan seedRows => do
    pure (.projectionBlock (← RefreshSequenceId.issued owner next) blockIndex plan seedRows, next + 1)

def RefreshStage.issueAll (owner : Nat) : (next : Nat) → List (RefreshStage Tearing Chart) →
    Option (List (RefreshStage Tearing Chart))
  | _, [] => some []
  | next, stage :: stages => do
    let (stage, next) ← stage.issue owner next
    pure (stage :: (← issueAll owner next stages))

def issueRefreshSequenceIds (plan : RefreshPlan Tearing Chart Row) (owner : Nat) :
    Option (RefreshPlan Tearing Chart Row) := do
  pure { plan with
    staticCausalSequence := ← RefreshSequenceId.issued owner 0
    dynamicCausalSequence := ← RefreshSequenceId.issued owner 1
    valueStages := ← RefreshStage.issueAll owner 2 plan.valueStages }

namespace ContinuousRefreshOwners

/-- The checked construction. `valid` is the validation of the issued plans and of their remainders. -/
def checked (valid : ContinuousRefreshOwners Tearing Chart Row → Bool)
    (algebraic derivative root event : RefreshPlan Tearing Chart Row) (clockEvents : List (RefreshPlan Tearing Chart Row)) :
    Option (ContinuousRefreshOwners Tearing Chart Row) := do
  let owners : ContinuousRefreshOwners Tearing Chart Row := {
    compactProjection := none
    algebraic := ← issueRefreshSequenceIds algebraic 0
    derivative := ← issueRefreshSequenceIds derivative 1
    root := ← issueRefreshSequenceIds root 2
    event := ← issueRefreshSequenceIds event 3
    clockEvents := ← clockEvents.zipIdx.mapM fun (plan, clock) =>
      issueRefreshSequenceIds plan (saturatingAddUsize clock 5) }
  if valid owners then some owners else none

def compactFromProjection (blocks : ProjectionBlocks Tearing Chart) : ContinuousRefreshOwners Tearing Chart Row :=
  let plan : RefreshPlan Tearing Chart Row := {
    staticCausalSequence := 0, dynamicCausalSequence := 0
    simultaneousPlan := blocks, simultaneousBlockIndices := []
    valueProjectionPlan := blocks, rows := []
    causalSeedRows := [], staticCausalSeedRows := [], dynamicCausalSeedRows := []
    valueStages := [], causalSolutionCertified := false }
  { compactProjection := some blocks, algebraic := plan, derivative := plan, root := plan, event := plan, clockEvents := [] }

end ContinuousRefreshOwners

variable [DecidableEq Tearing] [DecidableEq Chart] [BEq Row]

def RefreshStage.same : (a b : RefreshStage Tearing Chart) → Bool
  | .causalSeedSweep static dynamic staticRows dynamicRows, .causalSeedSweep static' dynamic' staticRows' dynamicRows' =>
    static == static' && dynamic == dynamic' && staticRows == staticRows' && dynamicRows == dynamicRows'
  | .exactAssignments static dynamic staticRows dynamicRows, .exactAssignments static' dynamic' staticRows' dynamicRows' =>
    static == static' && dynamic == dynamic' && staticRows == staticRows' && dynamicRows == dynamicRows'
  | .projectionBlock seed blockIndex plan seedRows, .projectionBlock seed' blockIndex' plan' seedRows' =>
    seed == seed' && blockIndex == blockIndex' && plan == plan' && seedRows == seedRows'
  | _, _ => false

instance : BEq (RefreshStage Tearing Chart) := ⟨RefreshStage.same⟩

/-- The wire-visible fields of a plan; the identities of its sequences are issued again. -/
def sameRefreshPlan (a b : RefreshPlan Tearing Chart Row) : Bool :=
  a.simultaneousPlan == b.simultaneousPlan && a.simultaneousBlockIndices == b.simultaneousBlockIndices &&
    a.valueProjectionPlan == b.valueProjectionPlan && a.rows == b.rows && a.causalSeedRows == b.causalSeedRows &&
    a.staticCausalSeedRows == b.staticCausalSeedRows && a.dynamicCausalSeedRows == b.dynamicCausalSeedRows &&
    a.valueStages == b.valueStages && a.causalSolutionCertified == b.causalSolutionCertified

def RefreshPlan.same (a b : RefreshPlan Tearing Chart Row) : Bool :=
  a.staticCausalSequence == b.staticCausalSequence && a.dynamicCausalSequence == b.dynamicCausalSequence &&
    sameRefreshPlan a b

def ContinuousRefreshOwners.fromCompactWire (blocks : ProjectionBlocks Tearing Chart)
    (algebraic derivative root event : RefreshPlan Tearing Chart Row) (clockEvents : List (RefreshPlan Tearing Chart Row)) :
    Option (ContinuousRefreshOwners Tearing Chart Row) :=
  let expected := compactFromProjection blocks
  if clockEvents.isEmpty && algebraic.same expected.algebraic && derivative.same expected.derivative &&
    root.same expected.root && event.same expected.event then some expected else none

def sameRefreshOwners (a b : ContinuousRefreshOwners Tearing Chart Row) : Bool :=
  a.compactProjection == b.compactProjection && sameRefreshPlan a.algebraic b.algebraic &&
    sameRefreshPlan a.derivative b.derivative && sameRefreshPlan a.root b.root && sameRefreshPlan a.event b.event &&
    a.clockEvents.length == b.clockEvents.length &&
    (a.clockEvents.zip b.clockEvents).all fun plans => sameRefreshPlan plans.1 plans.2

end

/-! ## Plan deltas -/

structure RefreshPlanDelta (Tearing Chart Row : Type) where
  simultaneousBlocks : VecDelta (ProjectionStage Tearing Chart)
  simultaneousBlockIndices : VecDelta Nat
  valueProjectionBlocks : VecDelta (ProjectionStage Tearing Chart)
  rows : VecDelta Row
  causalSeedRows : RefreshRowSelection
  staticCausalSeedRows : RefreshRowSelection
  dynamicCausalSeedRows : RefreshRowSelection
  valueStages : VecDelta (RefreshStage Tearing Chart)
  causalSolutionCertified : Bool

structure RefreshOwnersDelta (Tearing Chart Row : Type) where
  compactProjection : Option (ProjectionBlocks Tearing Chart)
  algebraic : RefreshPlanDelta Tearing Chart Row
  derivative : RefreshPlanDelta Tearing Chart Row
  root : RefreshPlanDelta Tearing Chart Row
  event : RefreshPlanDelta Tearing Chart Row
  clockEvents : List (RefreshPlan Tearing Chart Row)

/-- The lowered content of a continuous system, the primary's or an alternate plan's. -/
structure ReducedChartPlan (Program Span Tensor Tearing Chart Row : Type) where
  implicitRhs : ComputeBlock Program Span Tensor
  implicitRowTargets : ImplicitRowTargets Tearing Chart
  algebraicProjectionPlan : ProjectionBlocks Tearing Chart
  residual : ComputeBlock Program Span Tensor
  derivativeRhs : ComputeBlock Program Span Tensor
  refreshOwners : ContinuousRefreshOwners Tearing Chart Row

structure ChartPlanDelta (Program Span Tensor Tearing Chart Row : Type) where
  residual : ComputeBlockDelta Program Span Tensor
  implicitRhs : Option (ComputeBlockDelta Program Span Tensor)
  implicitRowTargets : ImplicitRowTargetsWire
  projectionBlocks : VecDelta (ProjectionStage Tearing Chart)
  derivativeRhs : ComputeBlock Program Span Tensor
  refreshOwners : RefreshOwnersDelta Tearing Chart Row

/-- What constructs a program block and what validates refresh owners. -/
structure Checks (Program Span Tearing Chart Row : Type) where
  admits : ScalarProgramBlock Program Span → Bool
  valid : ContinuousRefreshOwners Tearing Chart Row → Bool

section
variable {Program Span Tensor Tearing Chart Row : Type} [DecidableEq Tearing] [DecidableEq Chart] [BEq Row]

def RefreshPlanDelta.diff (base target : RefreshPlan Tearing Chart Row) : Option (RefreshPlanDelta Tearing Chart Row) := do
  pure {
    simultaneousBlocks := ← VecDelta.diff base.simultaneousPlan.stages target.simultaneousPlan.stages
    simultaneousBlockIndices := ← VecDelta.diff base.simultaneousBlockIndices target.simultaneousBlockIndices
    valueProjectionBlocks := ← VecDelta.diff base.valueProjectionPlan.stages target.valueProjectionPlan.stages
    rows := ← VecDelta.diff base.rows target.rows
    causalSeedRows := target.causalSeedRows
    staticCausalSeedRows := target.staticCausalSeedRows
    dynamicCausalSeedRows := target.dynamicCausalSeedRows
    valueStages := ← VecDelta.diff base.valueStages target.valueStages
    causalSolutionCertified := target.causalSolutionCertified }

def RefreshPlanDelta.apply (delta : RefreshPlanDelta Tearing Chart Row) (base : RefreshPlan Tearing Chart Row) :
    Patched (RefreshPlan Tearing Chart Row) := do
  pure {
    staticCausalSequence := 0
    dynamicCausalSequence := 0
    simultaneousPlan := ← stagesOr (← patchedBy delta.simultaneousBlocks base.simultaneousPlan.stages)
    simultaneousBlockIndices := ← patchedBy delta.simultaneousBlockIndices base.simultaneousBlockIndices
    valueProjectionPlan := ← stagesOr (← patchedBy delta.valueProjectionBlocks base.valueProjectionPlan.stages)
    rows := ← patchedBy delta.rows base.rows
    causalSeedRows := delta.causalSeedRows
    staticCausalSeedRows := delta.staticCausalSeedRows
    dynamicCausalSeedRows := delta.dynamicCausalSeedRows
    valueStages := ← patchedBy delta.valueStages base.valueStages
    causalSolutionCertified := delta.causalSolutionCertified }

def RefreshOwnersDelta.diff (base target : ContinuousRefreshOwners Tearing Chart Row) :
    Option (RefreshOwnersDelta Tearing Chart Row) := do
  pure {
    compactProjection := target.compactProjection
    algebraic := ← RefreshPlanDelta.diff base.algebraic target.algebraic
    derivative := ← RefreshPlanDelta.diff base.derivative target.derivative
    root := ← RefreshPlanDelta.diff base.root target.root
    event := ← RefreshPlanDelta.diff base.event target.event
    clockEvents := target.clockEvents }

def RefreshOwnersDelta.apply (valid : ContinuousRefreshOwners Tearing Chart Row → Bool)
    (delta : RefreshOwnersDelta Tearing Chart Row) (base : ContinuousRefreshOwners Tearing Chart Row) :
    Patched (ContinuousRefreshOwners Tearing Chart Row) := do
  let algebraic ← delta.algebraic.apply base.algebraic
  let derivative ← delta.derivative.apply base.derivative
  let root ← delta.root.apply base.root
  let event ← delta.event.apply base.event
  let owners := match delta.compactProjection with
    | some blocks => ContinuousRefreshOwners.fromCompactWire blocks algebraic derivative root event delta.clockEvents
    | none => ContinuousRefreshOwners.checked valid algebraic derivative root event delta.clockEvents
  match owners with
  | some owners => pure owners
  | none => throw .invalidRefreshOwners

variable [BEq Program] [BEq Span]

namespace ChartPlanDelta

/-- The implicit right-hand side: by its own delta, or the residual again. -/
def appliedImplicitRhs (checks : Checks Program Span Tearing Chart Row)
    (delta : ChartPlanDelta Program Span Tensor Tearing Chart Row)
    (primary : ReducedChartPlan Program Span Tensor Tearing Chart Row) (residual : ComputeBlock Program Span Tensor) :
    Patched (ComputeBlock Program Span Tensor) :=
  match delta.implicitRhs with
  | some implicitRhs => implicitRhs.apply checks.admits primary.implicitRhs
  | none => pure residual

def apply (checks : Checks Program Span Tearing Chart Row) (delta : ChartPlanDelta Program Span Tensor Tearing Chart Row)
    (primary : ReducedChartPlan Program Span Tensor Tearing Chart Row) :
    Patched (ReducedChartPlan Program Span Tensor Tearing Chart Row) := do
  let residual ← delta.residual.apply checks.admits primary.residual
  let implicitRhs ← appliedImplicitRhs checks delta primary residual
  let algebraicProjectionPlan ← stagesOr (← patchedBy delta.projectionBlocks primary.algebraicProjectionPlan.stages)
  let refreshOwners ← delta.refreshOwners.apply checks.valid primary.refreshOwners
  pure {
    implicitRhs
    implicitRowTargets := .fromWire delta.implicitRowTargets algebraicProjectionPlan
    algebraicProjectionPlan
    residual
    derivativeRhs := delta.derivativeRhs
    refreshOwners }

/-- The applied plan carries the lowered content of the plan. The derivative kernel is carried whole. -/
def faithful (delta : ChartPlanDelta Program Span Tensor Tearing Chart Row)
    (applied plan : ReducedChartPlan Program Span Tensor Tearing Chart Row) : Bool :=
  let implicitRhs := match delta.implicitRhs with
    | some implicitRhs => implicitRhs.reproduces applied.implicitRhs plan.implicitRhs
    | none => sameComputeBlock applied.implicitRhs plan.implicitRhs
  delta.residual.reproduces applied.residual plan.residual && implicitRhs &&
    applied.implicitRowTargets.same plan.implicitRowTargets &&
    applied.algebraicProjectionPlan == plan.algebraicProjectionPlan &&
    sameRefreshOwners applied.refreshOwners plan.refreshOwners

def implicitRhsDiff (primary plan : ReducedChartPlan Program Span Tensor Tearing Chart Row) :
    Option (Option (ComputeBlockDelta Program Span Tensor)) :=
  if sameComputeBlock plan.implicitRhs plan.residual then some none
  else (ComputeBlockDelta.diff primary.implicitRhs plan.implicitRhs).map some

def fields (primary plan : ReducedChartPlan Program Span Tensor Tearing Chart Row) :
    Option (ChartPlanDelta Program Span Tensor Tearing Chart Row) := do
  pure {
    implicitRhs := ← implicitRhsDiff primary plan
    residual := ← ComputeBlockDelta.diff primary.residual plan.residual
    implicitRowTargets := plan.implicitRowTargets.wire
    projectionBlocks :=
      ← VecDelta.diff primary.algebraicProjectionPlan.stages plan.algebraicProjectionPlan.stages
    derivativeRhs := plan.derivativeRhs
    refreshOwners := ← RefreshOwnersDelta.diff primary.refreshOwners plan.refreshOwners }

def diff (checks : Checks Program Span Tearing Chart Row)
    (primary plan : ReducedChartPlan Program Span Tensor Tearing Chart Row) :
    Patched (ChartPlanDelta Program Span Tensor Tearing Chart Row) := do
  let delta ← issued (fields primary plan)
  let applied ← delta.apply checks primary
  if delta.faithful applied plan then pure delta else throw .notFaithful

end ChartPlanDelta

end

/-! ## A delta is faithful -/

section
variable {T : Type} [BEq T]

theorem forall₂_of_beq {xs ys : List T} (h : (xs == ys) = true) : List.Forall₂ (fun x y => (x == y) = true) xs ys := by
  induction xs generalizing ys with
  | nil =>
    cases ys with
    | nil => exact .nil
    | cons y ys => cases h
  | cons x xs ih =>
    cases ys with
    | nil => cases h
    | cons y ys =>
      have hsplit : (x == y) = true ∧ (xs == ys) = true := by simpa using h
      exact .cons hsplit.1 (ih hsplit.2)

end

section
variable {Program Span Tensor Tearing Chart Row : Type} [DecidableEq Tearing] [DecidableEq Chart] [BEq Row]

/-- The same block, or single scalar-program blocks with equal programs, spans and output indices. -/
def SameBlock [BEq Program] [BEq Span] (a b : ComputeBlock Program Span Tensor) : Prop :=
  a = b ∨ ∃ p q, singleScalarBlock a = some p ∧ singleScalarBlock b = some q ∧
    List.Forall₂ (fun p q => (p == q) = true) p.programs q.programs ∧
    List.Forall₂ (fun p q => (p == q) = true) p.programSpans q.programSpans ∧ p.outputIndices = q.outputIndices

/-- The plans have the same stages, rows, selections and certificate. -/
structure SamePlan (a b : RefreshPlan Tearing Chart Row) : Prop where
  simultaneousPlan : a.simultaneousPlan.stages = b.simultaneousPlan.stages
  simultaneousBlockIndices : a.simultaneousBlockIndices = b.simultaneousBlockIndices
  valueProjectionPlan : a.valueProjectionPlan.stages = b.valueProjectionPlan.stages
  rows : List.Forall₂ (fun r r' => (r == r') = true) a.rows b.rows
  causalSeedRows : a.causalSeedRows = b.causalSeedRows
  staticCausalSeedRows : a.staticCausalSeedRows = b.staticCausalSeedRows
  dynamicCausalSeedRows : a.dynamicCausalSeedRows = b.dynamicCausalSeedRows
  valueStages : List.Forall₂ (fun stage stage' => RefreshStage.same stage stage' = true) a.valueStages b.valueStages
  causalSolutionCertified : a.causalSolutionCertified = b.causalSolutionCertified

structure SameOwners (a b : ContinuousRefreshOwners Tearing Chart Row) : Prop where
  compactProjection : a.compactProjection.map (·.stages) = b.compactProjection.map (·.stages)
  algebraic : SamePlan a.algebraic b.algebraic
  derivative : SamePlan a.derivative b.derivative
  root : SamePlan a.root b.root
  event : SamePlan a.event b.event
  clockEvents : List.Forall₂ SamePlan a.clockEvents b.clockEvents

/-- The applied plan has the plan's programs, targets, blocks and refresh owners. -/
structure Carries [BEq Program] [BEq Span] (applied plan : ReducedChartPlan Program Span Tensor Tearing Chart Row) :
    Prop where
  implicitRhs : SameBlock applied.implicitRhs plan.implicitRhs
  implicitRowTargets : applied.implicitRowTargets.same plan.implicitRowTargets = true
  algebraicProjectionPlan : applied.algebraicProjectionPlan.stages = plan.algebraicProjectionPlan.stages
  residual : SameBlock applied.residual plan.residual
  derivativeRhs : applied.derivativeRhs = plan.derivativeRhs
  refreshOwners : SameOwners applied.refreshOwners plan.refreshOwners

theorem stages_of_beq {a b : ProjectionBlocks Tearing Chart} (h : (a == b) = true) : a.stages = b.stages :=
  of_decide_eq_true h

theorem SamePlan.of_same {a b : RefreshPlan Tearing Chart Row} (h : sameRefreshPlan a b = true) : SamePlan a b := by
  simp only [sameRefreshPlan, Bool.and_eq_true] at h
  obtain ⟨⟨⟨⟨⟨⟨⟨⟨simultaneous, indices⟩, value⟩, rows⟩, seeds⟩, static⟩, dynamic⟩, stages⟩, certified⟩ := h
  exact {
    simultaneousPlan := stages_of_beq simultaneous
    simultaneousBlockIndices := eq_of_beq indices
    valueProjectionPlan := stages_of_beq value
    rows := forall₂_of_beq rows
    causalSeedRows := eq_of_beq seeds
    staticCausalSeedRows := eq_of_beq static
    dynamicCausalSeedRows := eq_of_beq dynamic
    valueStages := forall₂_of_beq stages
    causalSolutionCertified := eq_of_beq certified }

theorem SameOwners.of_same {a b : ContinuousRefreshOwners Tearing Chart Row} (h : sameRefreshOwners a b = true) :
    SameOwners a b := by
  simp only [sameRefreshOwners, Bool.and_eq_true] at h
  obtain ⟨⟨⟨⟨⟨⟨compact, algebraic⟩, derivative⟩, root⟩, event⟩, length⟩, clocks⟩ := h
  refine ⟨?_, .of_same algebraic, .of_same derivative, .of_same root, .of_same event, ?_⟩
  · cases ha : a.compactProjection with
    | none =>
      cases hb : b.compactProjection with
      | none => rfl
      | some blocks => rw [ha, hb] at compact; cases compact
    | some blocks =>
      cases hb : b.compactProjection with
      | none => rw [ha, hb] at compact; cases compact
      | some blocks' =>
        rw [ha, hb] at compact
        exact congrArg some (stages_of_beq (by simpa using compact))
  · refine List.forall₂_iff_zip.2 ⟨eq_of_beq length, fun {a b} hmem => ?_⟩
    exact .of_same (List.all_eq_true.1 clocks (a, b) hmem)

variable [BEq Program] [BEq Span]

theorem SameBlock.of_same {a b : ComputeBlock Program Span Tensor} (h : sameComputeBlock a b = true) : SameBlock a b := by
  unfold sameComputeBlock at h
  split at h
  · rename_i p q hp hq
    simp only [Bool.and_eq_true] at h
    exact .inr ⟨p, q, hp, hq, forall₂_of_beq h.1.1, forall₂_of_beq h.1.2, eq_of_beq h.2⟩
  · cases h

theorem ComputeBlockDelta.diff_spec {admits : ScalarProgramBlock Program Span → Bool}
    {base target applied : ComputeBlock Program Span Tensor} {delta : ComputeBlockDelta Program Span Tensor}
    (hdiff : ComputeBlockDelta.diff base target = some delta) (happly : delta.apply admits base = pure applied)
    (hsame : delta.reproduces applied target = true) : SameBlock applied target := by
  cases delta with
  | rows programs programSpans outputIndices => exact .of_same hsame
  | whole block =>
    refine .inl ?_
    obtain rfl : block = applied := pure_injective happly
    unfold ComputeBlockDelta.diff at hdiff
    split at hdiff
    · simp only [Option.bind_eq_bind, Option.bind_eq_some_iff] at hdiff
      obtain ⟨_, _, _, _, _, _, h⟩ := hdiff
      cases h
    · cases hdiff
      rfl

namespace ChartPlanDelta

theorem fields_spec {primary plan : ReducedChartPlan Program Span Tensor Tearing Chart Row}
    {delta : ChartPlanDelta Program Span Tensor Tearing Chart Row} (h : fields primary plan = some delta) :
    ComputeBlockDelta.diff primary.residual plan.residual = some delta.residual ∧
      (∀ implicitRhs, delta.implicitRhs = some implicitRhs →
        ComputeBlockDelta.diff primary.implicitRhs plan.implicitRhs = some implicitRhs) ∧
      delta.derivativeRhs = plan.derivativeRhs := by
  unfold fields at h
  simp only [Option.bind_eq_bind, Option.bind_eq_some_iff] at h
  obtain ⟨implicitRhs, himplicit, residual, hresidual, projectionBlocks, -, refreshOwners, -, hdelta⟩ := h
  cases hdelta
  refine ⟨hresidual, fun block hblock => ?_, rfl⟩
  obtain rfl : implicitRhs = some block := hblock
  unfold implicitRhsDiff at himplicit
  split at himplicit
  · cases himplicit
  · obtain ⟨block', hblock', hsome⟩ := Option.map_eq_some_iff.1 himplicit
    exact Option.some.inj hsome ▸ hblock'

omit [BEq Program] [BEq Span] in
theorem apply_spec {checks : Checks Program Span Tearing Chart Row}
    {delta : ChartPlanDelta Program Span Tensor Tearing Chart Row}
    {primary applied : ReducedChartPlan Program Span Tensor Tearing Chart Row} (h : delta.apply checks primary = pure applied) :
    delta.residual.apply checks.admits primary.residual = pure applied.residual ∧
      (∀ implicitRhs, delta.implicitRhs = some implicitRhs →
        implicitRhs.apply checks.admits primary.implicitRhs = pure applied.implicitRhs) ∧
      applied.derivativeRhs = delta.derivativeRhs := by
  obtain ⟨residual, hresidual, h⟩ := bind_eq_pure h
  obtain ⟨implicitRhs, himplicit, h⟩ := bind_eq_pure h
  obtain ⟨stages, -, h⟩ := bind_eq_pure h
  obtain ⟨algebraicProjectionPlan, -, h⟩ := bind_eq_pure h
  obtain ⟨refreshOwners, -, h⟩ := bind_eq_pure h
  obtain rfl := pure_injective h
  refine ⟨hresidual, fun block hblock => ?_, rfl⟩
  unfold appliedImplicitRhs at himplicit
  rw [hblock] at himplicit
  exact himplicit

theorem faithful_spec {checks : Checks Program Span Tearing Chart Row}
    {primary plan applied : ReducedChartPlan Program Span Tensor Tearing Chart Row}
    {delta : ChartPlanDelta Program Span Tensor Tearing Chart Row} (hfields : fields primary plan = some delta)
    (happly : delta.apply checks primary = pure applied) (hfaithful : delta.faithful applied plan = true) :
    Carries applied plan := by
  obtain ⟨hresidual, himplicit, hderivative⟩ := fields_spec hfields
  obtain ⟨hresidual', himplicit', hderivative'⟩ := apply_spec happly
  simp only [faithful, Bool.and_eq_true] at hfaithful
  obtain ⟨⟨⟨⟨residual, implicitRhs⟩, targets⟩, projection⟩, owners⟩ := hfaithful
  refine {
    implicitRhs := ?_
    implicitRowTargets := targets
    algebraicProjectionPlan := stages_of_beq projection
    residual := ComputeBlockDelta.diff_spec hresidual hresidual' residual
    derivativeRhs := hderivative'.trans hderivative
    refreshOwners := .of_same owners }
  cases hblock : delta.implicitRhs with
  | none =>
    rw [hblock] at implicitRhs
    exact .of_same implicitRhs
  | some block =>
    rw [hblock] at implicitRhs
    exact ComputeBlockDelta.diff_spec (himplicit block hblock) (himplicit' block hblock) implicitRhs

theorem diff_spec {checks : Checks Program Span Tearing Chart Row}
    {primary plan : ReducedChartPlan Program Span Tensor Tearing Chart Row}
    {delta : ChartPlanDelta Program Span Tensor Tearing Chart Row} (h : diff checks primary plan = pure delta) :
    ∃ applied, delta.apply checks primary = pure applied ∧ Carries applied plan := by
  obtain ⟨candidate, hcandidate, h⟩ := bind_eq_pure h
  obtain ⟨applied, happly, h⟩ := bind_eq_pure h
  split_ifs at h with hfaithful
  · obtain rfl := pure_injective h
    have hfields : fields primary plan = some candidate := by
      cases hx : fields primary plan with
      | none => rw [hx] at hcandidate; exact absurd hcandidate panic_ne_pure
      | some delta => rw [hx] at hcandidate; exact congrArg some (pure_injective hcandidate)
    exact ⟨applied, happly, faithful_spec hfields happly hfaithful⟩
  · exact absurd h throw_ne_pure

end ChartPlanDelta

end

/-! ## Deltas reproduce their target -/

section
variable {T : Type} [BEq T]

/-- Every edit script to the target's entries costs at least `cost`. -/
def AtLeast (cost : Nat) (base target : List T) : Prop :=
  ∀ edits, Reproduces base target edits → cost ≤ editCost edits

theorem editScript_spec {base target : List T} (hbase : base.length < u32Limit) (htarget : target.length < u32Limit) :
    ∃ answer, editScript base target = some answer ∧
      (∀ edits, answer = some edits → (∃ r, applyEdits base edits = .ok r ∧ List.Forall₂ Agree r target) ∧
        editCost edits ≤ maxEditDistance ∧ AtLeast (editCost edits) base target) ∧
      (answer = none → AtLeast (maxEditDistance + 1) base target) := by
  obtain ⟨answer, hanswer, hspec⟩ := editScriptUpTo_spec maxEditDistance ⟨hbase, htarget, by decide⟩
  refine ⟨answer, hanswer, ?_, ?_⟩
  · rintro edits rfl
    obtain ⟨r, happly, hr, hcost, hleast⟩ := hspec
    exact ⟨⟨r, happly, hr⟩, hcost, fun edits' h => Nat.not_lt.1 fun hlt => hleast _ hlt h.path⟩
  · rintro rfl edits' h
    exact Nat.not_lt.1 fun hlt => hspec _ (Nat.le_of_lt_succ hlt) h.path

end

theorem eq_of_agree {T : Type} [BEq T] (h : ∀ a b : T, (a == b) = true → a = b) {r target : List T}
    (hr : List.Forall₂ Agree r target) : r = target := by
  induction hr with
  | nil => rfl
  | cons hagree _ ih =>
    rw [ih]
    exact congrArg (· :: _) (hagree.elim id (h _ _))

/-- A list's delta applied to its base gives the target's entries, identical where equality is identity. The edit
script is a shortest one up to the largest distance, and none past it. A plan's delta applied to the primary gives the
plan's programs, targets, blocks and refresh owners. -/
theorem deltas_reproduce {T Program Span Tensor Tearing Chart Row : Type} [BEq T] [BEq Program] [BEq Span]
    [DecidableEq Tearing] [DecidableEq Chart] [BEq Row] :
    (∀ base target : List T, base.length < u32Limit → target.length < u32Limit →
      (∃ delta r, VecDelta.diff base target = some delta ∧ delta.apply base = .ok r ∧ List.Forall₂ Agree r target ∧
        ((∀ a b : T, (a == b) = true → a = b) → r = target)) ∧
      ∃ answer, editScript base target = some answer ∧
        (∀ edits, answer = some edits → (∃ r, applyEdits base edits = .ok r ∧ List.Forall₂ Agree r target) ∧
          editCost edits ≤ maxEditDistance ∧ AtLeast (editCost edits) base target) ∧
        (answer = none → AtLeast (maxEditDistance + 1) base target)) ∧
    ∀ (checks : Checks Program Span Tearing Chart Row)
      (primary plan : ReducedChartPlan Program Span Tensor Tearing Chart Row)
      (delta : ChartPlanDelta Program Span Tensor Tearing Chart Row),
      ChartPlanDelta.diff checks primary plan = pure delta →
        ∃ applied, delta.apply checks primary = pure applied ∧ Carries applied plan := by
  refine ⟨fun base target hbase htarget => ⟨?_, editScript_spec hbase htarget⟩, fun checks primary plan delta h =>
    ChartPlanDelta.diff_spec h⟩
  obtain ⟨delta, r, hdiff, happly, hr⟩ := VecDelta.diff_spec hbase htarget
  exact ⟨delta, r, hdiff, happly, hr, fun hlawful => eq_of_agree hlawful hr⟩

def twoRows (program : Nat) : ReducedChartPlan Nat Nat Unit Unit Unit Nat :=
  let rows : ComputeBlock Nat Nat Unit := ⟨[.scalarPrograms ⟨[10, program], [0, 0], [0, 1]⟩]⟩
  let blocks : ProjectionBlocks Unit Unit := ⟨[], 0, 0, ⟨[], []⟩⟩
  { implicitRhs := rows, implicitRowTargets := .projection blocks, algebraicProjectionPlan := blocks, residual := rows
    derivativeRhs := ⟨[]⟩, refreshOwners := .compactFromProjection blocks }

theorem deltas_reproduce_twoRows :
    (∃ r, VecDelta.apply (.replace [(1, 9), (2, 2)]) [1, 2, 3] = .ok r ∧ r = [1, 9, 2]) ∧
      ∃ delta applied, ChartPlanDelta.diff ⟨fun _ => true, fun _ => true⟩ (twoRows 11) (twoRows 12) = pure delta ∧
        delta.apply ⟨fun _ => true, fun _ => true⟩ (twoRows 11) = pure applied ∧ Carries applied (twoRows 12) := by
  obtain ⟨hlists, hplans⟩ := @deltas_reproduce Nat Nat Nat Unit Unit Unit Nat _ _ _ _ _ _
  constructor
  · obtain ⟨⟨delta, r, hdiff, happly, -, hr⟩, -⟩ := hlists [1, 2, 3] [1, 9, 2] (by decide) (by decide)
    obtain rfl : VecDelta.replace [(1, 9), (2, 2)] = delta := Option.some.inj hdiff
    exact ⟨r, happly, hr fun a b => eq_of_beq⟩
  · have hdiff : ∃ delta, ChartPlanDelta.diff ⟨fun _ => true, fun _ => true⟩ (twoRows 11) (twoRows 12) = pure delta :=
      ⟨_, rfl⟩
    obtain ⟨delta, hdelta⟩ := hdiff
    obtain ⟨applied, happly, hcarries⟩ := hplans _ _ _ delta hdelta
    exact ⟨delta, applied, hdelta, happly, hcarries⟩

end Rumoca.Solve.ChartDelta
