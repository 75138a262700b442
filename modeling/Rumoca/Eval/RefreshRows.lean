import Rumoca.Lib.Loop
import Rumoca.Machine
import Rumoca.Solve.LinearOp
import Mathlib.Tactic
/-!
# Algebraic refresh rows and plans

A refresh row assigns one solver value from an expression prefix of a scalar
program. A plan orders the rows, and its stages interleave them with the
projection blocks that are solved simultaneously. The dependency analysis of a
program is a parameter here: it answers the solver values that a set of
registers may read over a prefix, as intervals, or nothing when it cannot
bound them.
-/

namespace Rumoca.Eval

open Rumoca.Lib Rumoca.Solve

/-! ## Rows -/

/-- A canonical scalar program: its compute node and its place in the node. -/
structure RefreshScalarProgramSource where
  node : Nat
  program : Nat
deriving DecidableEq, Repr

def RefreshScalarProgramSource.checked (node program : Nat) : Option RefreshScalarProgramSource := do
  pure ⟨← checkedU32 node, ← checkedU32 program⟩

inductive ProjectionRule where
  | independent
  | target (offset : Nat)
  | linear
  | leftProduct
  | rightProduct
deriving DecidableEq, Repr

structure AffineTensorProjection where
  steps : List (Reg × ProjectionRule)
  independentRanges : List (Reg × Nat)
deriving DecidableEq, Repr

/-- Whether every step from the target to the output is a sum or a difference. -/
def AffineTensorProjection.constantCoefficient (projection : AffineTensorProjection) : Bool :=
  projection.steps.all fun step => !(step.2 = .leftProduct || step.2 = .rightProduct)

/-- How a row isolates its target, with the registers that its value is computed from. -/
inductive TargetAssignmentShape where
  | zero (targetYIndex exprEvalLen : Nat)
  | direct (targetYIndex : Nat) (exprReg : Reg) (exprEvalLen : Nat)
  | affine (targetYIndex : Nat) (offsetReg : Reg) (coefficientReg : Option Reg) (exprEvalLen : Nat)
  | additive (targetYIndex : Nat) (offsetTerms : List Reg) (exprEvalLen : Nat)
  | reciprocal (targetYIndex : Nat) (numeratorReg divisorReg : Reg) (exprEvalLen : Nat)
  | tensorAffine (targetYIndex : Nat) (projection : AffineTensorProjection) (exprEvalLen : Nat)
deriving DecidableEq, Repr

namespace TargetAssignmentShape

def targetYIndex : TargetAssignmentShape → Nat
  | zero target _ | direct target _ _ | affine target _ _ _ | additive target _ _ | reciprocal target _ _ _
  | tensorAffine target _ _ => target

def exprEvalLen : TargetAssignmentShape → Nat
  | zero _ len | direct _ _ len | affine _ _ _ len | additive _ _ len | reciprocal _ _ _ len
  | tensorAffine _ _ len => len

def isDirect : TargetAssignmentShape → Bool
  | zero .. | direct .. => true
  | _ => false

def constantCoefficient : TargetAssignmentShape → Bool
  | zero .. | direct .. | additive .. => true
  | affine _ _ coefficientReg _ => coefficientReg.isNone
  | tensorAffine _ projection _ => projection.constantCoefficient
  | reciprocal .. => false

def valueRegisterRanges : TargetAssignmentShape → List (Reg × Nat)
  | zero .. => []
  | direct _ exprReg _ => [(exprReg, 1)]
  | affine _ offsetReg coefficientReg _ => (offsetReg, 1) :: coefficientReg.toList.map (·, 1)
  | additive _ offsetTerms _ => offsetTerms.map (·, 1)
  | reciprocal _ numeratorReg divisorReg _ => [(numeratorReg, 1), (divisorReg, 1)]
  | tensorAffine _ projection _ => projection.independentRanges

def valueRegisters (shape : TargetAssignmentShape) : List Reg :=
  shape.valueRegisterRanges.flatMap fun (start, count) =>
    (List.range count).filterMap fun offset => (checkedU32 offset).bind fun offset => checkedU32 (start + offset)

end TargetAssignmentShape

/-- A row carries the certificates that its constructor checks. -/
structure AlgebraicRefreshRow where
  source : RefreshScalarProgramSource
  equationIndex : Nat
  targetIndex : Nat
  assignmentShape : Option TargetAssignmentShape
  exactAssignmentCertified : Bool
  shape_target : ∀ shape ∈ assignmentShape, shape.targetYIndex = targetIndex
  exact_shape : exactAssignmentCertified = true → assignmentShape.isSome = true
deriving DecidableEq

def AlgebraicRefreshRow.checked (source : RefreshScalarProgramSource) (equationIndex targetIndex : Nat)
    (assignmentShape : Option TargetAssignmentShape) (exactAssignmentCertified : Bool) :
    Except String AlgebraicRefreshRow :=
  if htarget : ∀ shape ∈ assignmentShape, shape.targetYIndex = targetIndex then
    if hexact : exactAssignmentCertified = true → assignmentShape.isSome = true then
      .ok ⟨source, equationIndex, targetIndex, assignmentShape, exactAssignmentCertified, htarget, hexact⟩
    else .error "continuous refresh exact certificate has no assignment shape"
  else .error "continuous refresh assignment certificate belongs to another target"

/-! ## Selections of rows -/

abbrev RefreshRowSelection := List Nat

/-- One turn of the loop of `RefreshRowSelection::checked`. -/
def selectRow (rowCount : Nat) (s : List Nat × (Nat → Bool)) (index : Nat) :
    Except String (List Nat × (Nat → Bool)) :=
  if index ≥ rowCount then .error "continuous refresh selection refers to an unowned canonical row"
  else if s.2 index then .error "continuous refresh selection repeats a canonical row"
  else if index < u32Limit then .ok (s.1 ++ [index], Function.update s.2 index true)
  else .error "continuous refresh row catalog exceeds u32"

namespace RefreshRowSelection

def checked (rowCount : Nat) (indices : List Nat) : Except String RefreshRowSelection :=
  (indices.foldlM (selectRow rowCount) ([], fun _ => false)).map (·.1)

def all (rowCount : Nat) : Except String RefreshRowSelection := checked rowCount (List.range rowCount)

end RefreshRowSelection

/-- Distinct rows of the catalog are selected as they stand, or one of them is past `u32`. -/
theorem RefreshRowSelection.checked_spec {rowCount : Nat} {indices : List Nat} (hnodup : indices.Nodup)
    (hbound : ∀ index ∈ indices, index < rowCount) :
    (checked rowCount indices = .ok indices ∧ ∀ index ∈ indices, index < u32Limit) ∨
      (checked rowCount indices = .error "continuous refresh row catalog exceeds u32" ∧
        ∃ index ∈ indices, u32Limit ≤ index) := by
  have key : ∀ (post pre : List Nat) (seen : Nat → Bool), indices = pre ++ post →
      (∀ index, seen index = true ↔ index ∈ pre) →
      (∃ seen', post.foldlM (selectRow rowCount) (pre, seen) = .ok (indices, seen') ∧ ∀ index ∈ post, index < u32Limit) ∨
        (post.foldlM (selectRow rowCount) (pre, seen) = .error "continuous refresh row catalog exceeds u32" ∧
          ∃ index ∈ post, u32Limit ≤ index) := by
    intro post
    induction post with
    | nil =>
      intro pre seen hsplit _
      exact .inl ⟨seen, by simp [hsplit, pure, Except.pure], by simp⟩
    | cons index post ih =>
      intro pre seen hsplit hseen
      have hlt : ¬index ≥ rowCount := not_le.2 (hbound index (by simp [hsplit]))
      have hfresh : seen index = false := by
        rw [← Bool.not_eq_true, hseen]
        rw [hsplit] at hnodup
        exact fun hmem => (List.disjoint_of_nodup_append hnodup) hmem (List.mem_cons_self ..)
      by_cases hu32 : index < u32Limit
      · have hstep : selectRow rowCount (pre, seen) index = .ok (pre ++ [index], Function.update seen index true) := by
          simp only [selectRow, hlt, hfresh, hu32, if_true, if_false, Bool.false_eq_true]
        rw [List.foldlM_cons, hstep]
        rcases ih (pre ++ [index]) (Function.update seen index true) (by simpa using hsplit)
            (fun j => by by_cases hj : j = index <;> simp [hj, hseen]) with ⟨seen', hrun, hall⟩ | ⟨hrun, hex⟩
        · refine .inl ⟨seen', hrun, fun j hj => ?_⟩
          rcases List.mem_cons.1 hj with rfl | hj
          · exact hu32
          · exact hall j hj
        · obtain ⟨j, hj, hlimit⟩ := hex
          exact .inr ⟨hrun, j, List.mem_cons_of_mem _ hj, hlimit⟩
      · have hstep : selectRow rowCount (pre, seen) index = .error "continuous refresh row catalog exceeds u32" := by
          simp only [selectRow, hlt, hfresh, hu32, if_false, Bool.false_eq_true]
        rw [List.foldlM_cons, hstep]
        exact .inr ⟨rfl, index, by simp, not_lt.1 hu32⟩
  rcases key indices [] (fun _ => false) rfl (by simp) with ⟨seen, hrun, hall⟩ | ⟨hrun, hex⟩
  · exact .inl ⟨by rw [checked, hrun]; rfl, hall⟩
  · exact .inr ⟨by rw [checked, hrun]; rfl, hex⟩

theorem RefreshRowSelection.all_eq_ok {rowCount : Nat} (h : rowCount ≤ u32Limit) :
    all rowCount = .ok (List.range rowCount) := by
  rcases checked_spec (List.nodup_range) (fun index => List.mem_range.1) with ⟨hok, -⟩ | ⟨-, index, hmem, hlimit⟩
  · exact hok
  · have := List.mem_range.1 hmem
    omega

theorem RefreshRowSelection.all_eq_error {rowCount : Nat} (h : u32Limit < rowCount) :
    all rowCount = .error "continuous refresh row catalog exceeds u32" := by
  rcases checked_spec (List.nodup_range) (fun index => List.mem_range.1) with ⟨-, hall⟩ | ⟨herror, -⟩
  · exact absurd (hall u32Limit (List.mem_range.2 h)) (lt_irrefl _)
  · exact herror

/-! ## Plans -/

structure AlgebraicProjectionBlock where
  rows : List Nat
  yIndices : List Nat
deriving DecidableEq, Repr

abbrev AlgebraicProjectionPlan := List AlgebraicProjectionBlock

inductive RefreshStage where
  | causalSeedSweep (staticRows dynamicRows : RefreshRowSelection)
  | exactAssignments (staticRows dynamicRows : RefreshRowSelection)
  | projectionBlock (blockIndex : Nat) (plan : AlgebraicProjectionPlan) (seedRows : RefreshRowSelection)
deriving DecidableEq, Repr

structure RefreshPlan where
  simultaneousPlan : AlgebraicProjectionPlan
  simultaneousBlockIndices : List Nat
  valueProjectionPlan : AlgebraicProjectionPlan
  rows : List AlgebraicRefreshRow
  causalSeedRows : RefreshRowSelection
  staticCausalSeedRows : RefreshRowSelection
  dynamicCausalSeedRows : RefreshRowSelection
  valueStages : List RefreshStage
  causalSolutionCertified : Bool

/-! ## What a row reads -/

/-- Inclusive intervals, none of them empty. -/
structure IndexIntervals where
  intervals : List (Nat × Nat)
  nonempty : ∀ interval ∈ intervals, interval.1 ≤ interval.2

/-- `index` lies in one of the intervals. -/
def IndexIntervals.Contains (footprint : IndexIntervals) (index : Nat) : Prop :=
  ∃ interval ∈ footprint.intervals, interval.1 ≤ index ∧ index ≤ interval.2

/-- The programs of a block, and the analyses of a program that refresh planning asks for. -/
structure RefreshProgramAccess (P : Type) where
  program : Nat → Option P
  sourceIndex : RefreshScalarProgramSource → Option Nat
  /-- What the registers may read over a prefix; `none` when the analysis cannot bound it. -/
  footprint : P → (len : Nat) → List Reg → Option IndexIntervals
  /-- The same question put to the prefix alone; `none` also when the program is shorter. -/
  prefixFootprint : P → (len : Nat) → List Reg → Option IndexIntervals
  /-- The solver values the whole program loads, as half-open ranges. -/
  inputRanges : P → List (Nat × Nat)

variable {P : Type}

def RefreshProgramAccess.sourceProgram (block : RefreshProgramAccess P) (source : RefreshScalarProgramSource) : Option P :=
  (block.sourceIndex source).bind block.program

/-- The footprint of the row's value registers over its expression prefix. -/
def rowFootprint (block : RefreshProgramAccess P) (row : AlgebraicRefreshRow) (ops : P) : Option IndexIntervals :=
  row.assignmentShape.bind fun shape => block.footprint ops shape.exprEvalLen shape.valueRegisters

/-- The row may read the solver value `index`: every input of its program, unless its assignment is bounded. -/
def RowReads (block : RefreshProgramAccess P) (row : AlgebraicRefreshRow) (index : Nat) : Prop :=
  ∃ ops ∈ block.sourceProgram row.source,
    match rowFootprint block row ops with
    | some footprint => footprint.Contains index
    | none => ∃ range ∈ block.inputRanges ops, range.1 ≤ index ∧ index < range.2

def producersWithin (footprint : Option IndexIntervals) (inputRanges : List (Nat × Nat))
    (producerByTarget : List (Nat × Nat)) : List Nat :=
  match footprint with
  | some footprint => footprint.intervals.flatMap fun interval =>
      (producerByTarget.filter fun entry => interval.1 ≤ entry.1 ∧ entry.1 ≤ interval.2).map (·.1)
  | none => inputRanges.flatMap fun range =>
      (producerByTarget.filter fun entry => range.1 ≤ entry.1 ∧ entry.1 < range.2).map (·.1)

def refreshRowDependencyPositions (block : RefreshProgramAccess P) (row : AlgebraicRefreshRow) (ops : P)
    (stateCount : Nat) (producerByTarget : List (Nat × Nat)) : List Nat :=
  sortDedup ((producersWithin (rowFootprint block row ops) (block.inputRanges ops) producerByTarget).filterMap
    fun index => if stateCount ≤ index ∧ index ≠ row.targetIndex then producerByTarget.lookup index else none)

theorem refreshRowDependencyPositions_nodup (block : RefreshProgramAccess P) (row : AlgebraicRefreshRow) (ops : P)
    (stateCount : Nat) (producerByTarget : List (Nat × Nat)) :
    (refreshRowDependencyPositions block row ops stateCount producerByTarget).Nodup :=
  (sortDedup_sorted _).imp ne_of_lt

theorem mem_producersWithin {footprint : Option IndexIntervals} {inputRanges producerByTarget : List (Nat × Nat)}
    {index : Nat} :
    index ∈ producersWithin footprint inputRanges producerByTarget ↔
      (∃ position, (index, position) ∈ producerByTarget) ∧
        match footprint with
        | some footprint => footprint.Contains index
        | none => ∃ range ∈ inputRanges, range.1 ≤ index ∧ index < range.2 := by
  cases footprint <;> simp only [producersWithin, IndexIntervals.Contains, List.mem_flatMap, List.mem_map,
    List.mem_filter, decide_eq_true_eq, Prod.exists, exists_and_right, exists_eq_right] <;> grind

theorem mem_refreshRowDependencyPositions {block : RefreshProgramAccess P} {row : AlgebraicRefreshRow} {ops : P}
    {stateCount : Nat} {producerByTarget : List (Nat × Nat)} {position : Nat}
    (hops : block.sourceProgram row.source = some ops) :
    position ∈ refreshRowDependencyPositions block row ops stateCount producerByTarget ↔
      ∃ index, stateCount ≤ index ∧ index ≠ row.targetIndex ∧ producerByTarget.lookup index = some position ∧
        RowReads block row index := by
  have hreads : ∀ index, RowReads block row index ↔
      match rowFootprint block row ops with
      | some footprint => footprint.Contains index
      | none => ∃ range ∈ block.inputRanges ops, range.1 ≤ index ∧ index < range.2 := by
    intro index
    simp only [RowReads, hops, Option.mem_def, Option.some.injEq, exists_eq_left']
  simp only [refreshRowDependencyPositions, mem_sortDedup, List.mem_filterMap, mem_producersWithin, ← hreads]
  constructor
  · rintro ⟨index, ⟨-, hread⟩, hfilter⟩
    split at hfilter
    · next h => exact ⟨index, h.1, h.2, hfilter, hread⟩
    · cases hfilter
  · rintro ⟨index, hstate, hown, hlookup, hread⟩
    obtain ⟨before, after, hentries, -⟩ := List.lookup_eq_some_iff.1 hlookup
    have hmem : (index, position) ∈ producerByTarget := by rw [hentries]; simp
    exact ⟨index, ⟨⟨position, hmem⟩, hread⟩, by rw [if_pos ⟨hstate, hown⟩, hlookup]⟩

end Rumoca.Eval
