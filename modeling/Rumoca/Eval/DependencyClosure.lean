import Rumoca.Eval.Arithmetic
import Rumoca.Eval.DependencyDomain
import Rumoca.Eval.RefreshStages
import Mathlib.Tactic
/-!
# The dependency closure of a partial refresh

`collect_dependency_closure` walks a stack of solver values. A value of a block
brings in the block: an exactly assigned value the reads of its assignment, any
other the whole block. A value that only a row refreshes brings in the inputs of
the row's program. Each value and each block is entered once.
-/

namespace Rumoca.Eval

open Rumoca.Lib Rumoca.Solve

variable {P : Type}

/-! ## The model -/

/-- The value of a key when later entries overwrite earlier ones. -/
def lastEntry {α : Type} (entries : List (Nat × α)) (key : Nat) : Option α := entries.reverse.lookup key

/-- `dependency_target_rows`: the source of the row that refreshes a target. -/
def dependencyTargetRows (plan : RefreshPlan) : List (Nat × RefreshScalarProgramSource) :=
  plan.rows.map fun row => (row.targetIndex, row.source)

/-- `dependency_blocks_by_target`: the block of an unknown. -/
def dependencyBlocksByTarget (plan : RefreshPlan) : List (Nat × Nat) :=
  plan.simultaneousPlan.zipIdx.flatMap fun entry => entry.1.yIndices.map fun target => (target, entry.2)

def RefreshStage.exactPositions : RefreshStage → List Nat
  | exactAssignments staticRows dynamicRows => staticRows ++ dynamicRows
  | _ => []

/-- `issued_exact_assignment_rows`; `none` where a selection names no row of the plan. -/
def issuedExactAssignmentRows (plan : RefreshPlan) : Option (List (Nat × AlgebraicRefreshRow)) :=
  (plan.valueStages.flatMap RefreshStage.exactPositions).mapM fun position =>
    plan.rows[position]?.map fun row => (row.targetIndex, row)

def IndexIntervals.indices (footprint : IndexIntervals) : List Nat :=
  footprint.intervals.flatMap fun interval => List.range' interval.1 (interval.2 + 1 - interval.1)

def inputIndices (block : RefreshProgramAccess P) (ops : P) : List Nat :=
  (block.inputRanges ops).flatMap fun range => List.range' range.1 (range.2 - range.1)

/-- What an exact assignment reads: the footprint of its value registers, or every input without one. -/
def assignmentReads (block : RefreshProgramAccess P) (ops : P) (shape : TargetAssignmentShape) : List Nat :=
  match block.prefixFootprint ops shape.exprEvalLen shape.valueRegisters with
  | some footprint => footprint.indices
  | none => inputIndices block ops

/-- The values `enqueue_exact_assignment_dependencies` pushes; `none` where the row lacks its source or shape. -/
def exactAssignmentDependencies (block : RefreshProgramAccess P) (stateCount : Nat) (row : AlgebraicRefreshRow) :
    Option (List Nat) :=
  match block.sourceProgram row.source, row.assignmentShape with
  | some ops, some shape => some ((assignmentReads block ops shape).filter (stateCount ≤ ·))
  | _, _ => none

/-- The values `enqueue_source_dependencies` and `enqueue_row_dependencies` push for a program. -/
def programDependencies (block : RefreshProgramAccess P) (stateCount : Nat) (ops : Option P) : List Nat :=
  match ops with
  | none => []
  | some ops => (inputIndices block ops).filter (stateCount ≤ ·)

def rowProgram (block : RefreshProgramAccess P) (outputPositions : Nat → Option Nat) (equationIndex : Nat) : Option P :=
  (outputPositions equationIndex).bind block.program

/-- The values `enqueue_projection_block_dependencies` pushes: the unknowns, then what the rows load. -/
def projectionBlockDependencies (block : RefreshProgramAccess P) (outputPositions : Nat → Option Nat) (stateCount : Nat)
    (projection : AlgebraicProjectionBlock) : List Nat :=
  projection.yIndices ++ projection.rows.flatMap fun equationIndex =>
    programDependencies block stateCount (rowProgram block outputPositions equationIndex)

structure ClosureState where
  stack : List Nat
  needed : List Nat
  neededBlocks : List Nat
deriving DecidableEq, Repr

def ClosureState.pushAll (s : ClosureState) (dependencies : List Nat) : ClosureState :=
  { s with stack := dependencies.reverse ++ s.stack }

/-- What a newly needed value brings in; `none` is a panic of the source. -/
def enterTarget (plan : RefreshPlan) (block : RefreshProgramAccess P) (exactRows : List (Nat × AlgebraicRefreshRow))
    (outputPositions : Nat → Option Nat) (stateCount : Nat) (s : ClosureState) (index : Nat) :
    ExceptT EvalSolveError Option ClosureState :=
  match lastEntry (dependencyBlocksByTarget plan) index with
  | none =>
    match lastEntry (dependencyTargetRows plan) index with
    | none => pure s
    | some source => pure (s.pushAll (programDependencies block stateCount (block.sourceProgram source)))
  | some blockIndex =>
    if blockIndex ∈ s.neededBlocks then pure s
    else
      let s := { s with neededBlocks := s.neededBlocks ++ [blockIndex] }
      match lastEntry exactRows index with
      | some row =>
        match exactAssignmentDependencies block stateCount row with
        | none => throw (.invalidRow "issued exact assignment lacks its source or shape")
        | some dependencies => pure (s.pushAll dependencies)
      | none =>
        match plan.simultaneousPlan[blockIndex]? with
        | none => ExceptT.mk none
        | some projection =>
          pure (s.pushAll (projectionBlockDependencies block outputPositions stateCount projection))

def closureTurn (plan : RefreshPlan) (block : RefreshProgramAccess P) (exactRows : List (Nat × AlgebraicRefreshRow))
    (outputPositions : Nat → Option Nat) (stateCount : Nat) (s : ClosureState) :
    Option (Ctl ClosureState (Except EvalSolveError ClosureState)) :=
  match s.stack with
  | [] => some (.done (.ok s))
  | index :: stack =>
    let s := { s with stack := stack }
    if index < stateCount ∨ index ∈ s.needed then some (.next s)
    else
      match (enterTarget plan block exactRows outputPositions stateCount
        { s with needed := s.needed ++ [index] } index).run with
      | none => none
      | some (.error error) => some (.done (.error error))
      | some (.ok s) => some (.next s)

def rowCost (block : RefreshProgramAccess P) (stateCount : Nat) (row : AlgebraicRefreshRow) : Nat :=
  (programDependencies block stateCount (block.sourceProgram row.source)).length +
    ((exactAssignmentDependencies block stateCount row).getD []).length

def closureFuel (plan : RefreshPlan) (block : RefreshProgramAccess P) (outputPositions : Nat → Option Nat)
    (stateCount : Nat) (seeds : List Nat) : Nat :=
  seeds.length + (plan.rows.map (rowCost block stateCount)).sum +
    (plan.simultaneousPlan.map fun projection =>
      (projectionBlockDependencies block outputPositions stateCount projection).length).sum + 1

/-- The producers a relation is met with: the targets of the rows and the unknowns of the blocks. -/
def producerCandidates (plan : RefreshPlan) : List Nat :=
  (dependencyTargetRows plan).map (·.1) ++ (dependencyBlocksByTarget plan).map (·.1)

def collectDependencyClosure (plan : RefreshPlan) (block : RefreshProgramAccess P) (initialDeps : CompactYDependencySet)
    (outputPositions : Nat → Option Nat) (stateCount : Nat) : ExceptT EvalSolveError Option (List Nat × List Nat) := do
  let exactRows ← ExceptT.lift (issuedExactAssignmentRows plan)
  let seeds := initialDeps.seedStack (producerCandidates plan)
  let s ← ExceptT.mk (loop (closureTurn plan block exactRows outputPositions stateCount)
    (closureFuel plan block outputPositions stateCount seeds) ⟨seeds.reverse, [], []⟩)
  pure (s.needed, s.neededBlocks)

/-! ## Maps with overwriting -/

theorem mem_of_lastEntry {α : Type} {entries : List (Nat × α)} {key : Nat} {value : α}
    (h : lastEntry entries key = some value) : (key, value) ∈ entries := by
  obtain ⟨before, after, hsplit, -⟩ := List.lookup_eq_some_iff.1 h
  rw [← List.mem_reverse, hsplit]
  simp

theorem lastEntry_ne_none {α : Type} {entries : List (Nat × α)} {key : Nat} {value : α} (h : (key, value) ∈ entries) :
    lastEntry entries key ≠ none := by
  intro hnone
  have := List.lookup_eq_none_iff.1 hnone (key, value) (List.mem_reverse.2 h)
  simp at this

/-! ## Plans as the construction issues them -/

/-- The blocks share no unknown, and each exact assignment of the stages is a certified row of the plan that assigns
a singleton block of it. -/
structure Issued (plan : RefreshPlan) : Prop where
  disjoint : plan.simultaneousPlan.Pairwise fun a b => a.yIndices.Disjoint b.yIndices
  exact : ∀ position ∈ plan.valueStages.flatMap RefreshStage.exactPositions, ∃ row, plan.rows[position]? = some row ∧
    row.exactAssignmentCertified = true ∧ ⟨[row.equationIndex], [row.targetIndex]⟩ ∈ plan.simultaneousPlan

section
variable {plan : RefreshPlan}

theorem Issued.block_unique (h : Issued plan) {i j : Nat} {a b : AlgebraicProjectionBlock} {target : Nat}
    (hi : plan.simultaneousPlan[i]? = some a) (hj : plan.simultaneousPlan[j]? = some b) (ha : target ∈ a.yIndices)
    (hb : target ∈ b.yIndices) : i = j := by
  obtain ⟨hilt, rfl⟩ := List.getElem?_eq_some_iff.1 hi
  obtain ⟨hjlt, rfl⟩ := List.getElem?_eq_some_iff.1 hj
  rcases lt_trichotomy i j with hlt | heq | hlt
  · exact absurd hb (List.disjoint_left.1 (List.pairwise_iff_getElem.1 h.disjoint i j hilt hjlt hlt) ha)
  · exact heq
  · exact absurd ha (List.disjoint_left.1 (List.pairwise_iff_getElem.1 h.disjoint j i hjlt hilt hlt) hb)

theorem mem_dependencyBlocksByTarget {target blockIndex : Nat} :
    (target, blockIndex) ∈ dependencyBlocksByTarget plan ↔
      ∃ projection, plan.simultaneousPlan[blockIndex]? = some projection ∧ target ∈ projection.yIndices := by
  simp only [dependencyBlocksByTarget, List.mem_flatMap, List.mem_map, Prod.mk.injEq, Prod.exists,
    List.mem_zipIdx_iff_getElem?]
  constructor
  · rintro ⟨projection, index, hprojection, _, htarget, rfl, rfl⟩
    exact ⟨projection, hprojection, htarget⟩
  · rintro ⟨projection, hprojection, htarget⟩
    exact ⟨projection, blockIndex, hprojection, target, htarget, rfl, rfl⟩

theorem Issued.blockByTarget_iff (h : Issued plan) {target blockIndex : Nat} :
    lastEntry (dependencyBlocksByTarget plan) target = some blockIndex ↔
      ∃ projection, plan.simultaneousPlan[blockIndex]? = some projection ∧ target ∈ projection.yIndices := by
  constructor
  · exact fun hlast => mem_dependencyBlocksByTarget.1 (mem_of_lastEntry hlast)
  · intro hblock
    obtain ⟨other, hother⟩ :=
      Option.ne_none_iff_exists'.1 (lastEntry_ne_none (mem_dependencyBlocksByTarget.2 hblock))
    obtain ⟨projection, hprojection, htarget⟩ := hblock
    obtain ⟨projection', hprojection', htarget'⟩ := mem_dependencyBlocksByTarget.1 (mem_of_lastEntry hother)
    rw [hother, h.block_unique hprojection' hprojection htarget' htarget]

theorem mem_issuedExactAssignmentRows {exactRows : List (Nat × AlgebraicRefreshRow)}
    (hrows : issuedExactAssignmentRows plan = some exactRows) {target : Nat} {row : AlgebraicRefreshRow}
    (hmem : (target, row) ∈ exactRows) :
    target = row.targetIndex ∧ ∃ position ∈ plan.valueStages.flatMap RefreshStage.exactPositions,
      plan.rows[position]? = some row := by
  obtain ⟨position, hposition, heq⟩ := mapM_mem hrows _ hmem
  obtain ⟨other, hother, hpair⟩ := Option.map_eq_some_iff.1 heq
  obtain ⟨rfl, rfl⟩ := Prod.mk.inj hpair
  exact ⟨rfl, position, hposition, hother⟩

theorem Issued.exact_block (h : Issued plan) {exactRows : List (Nat × AlgebraicRefreshRow)}
    (hrows : issuedExactAssignmentRows plan = some exactRows) {target : Nat} {row : AlgebraicRefreshRow}
    (hlast : lastEntry exactRows target = some row) :
    row ∈ plan.rows ∧ row.targetIndex = target ∧ row.exactAssignmentCertified = true ∧
      ∃ blockIndex, lastEntry (dependencyBlocksByTarget plan) target = some blockIndex ∧
        plan.simultaneousPlan[blockIndex]? = some ⟨[row.equationIndex], [target]⟩ := by
  obtain ⟨rfl, position, hposition, hrow⟩ := mem_issuedExactAssignmentRows hrows (mem_of_lastEntry hlast)
  obtain ⟨other, hother, hexact, hblock⟩ := h.exact position hposition
  obtain rfl := Option.some.inj (hother.symm.trans hrow)
  obtain ⟨blockIndex, hindex⟩ := List.mem_iff_getElem?.1 hblock
  exact ⟨List.mem_of_getElem? hrow, rfl, hexact, blockIndex,
    h.blockByTarget_iff.2 ⟨_, hindex, List.mem_singleton_self _⟩, hindex⟩

end

/-! ## The invariant of the walk -/

def Covered (stateCount : Nat) (s : ClosureState) (index : Nat) : Prop :=
  index < stateCount ∨ index ∈ s.needed ∨ index ∈ s.stack

section
variable (plan : RefreshPlan) (block : RefreshProgramAccess P) (exactRows : List (Nat × AlgebraicRefreshRow))
  (outputPositions : Nat → Option Nat) (stateCount : Nat)

/-- What every needed value and every needed block brings in is covered. -/
structure ClosureInv (seeds : List Nat) (s : ClosureState) : Prop where
  nonstate : ∀ target ∈ s.needed, stateCount ≤ target
  seeded : ∀ target ∈ seeds, Covered stateCount s target
  blocks : ∀ target ∈ s.needed, ∀ blockIndex, lastEntry (dependencyBlocksByTarget plan) target = some blockIndex →
    blockIndex ∈ s.neededBlocks
  entered : ∀ blockIndex ∈ s.neededBlocks, ∃ target ∈ s.needed,
    lastEntry (dependencyBlocksByTarget plan) target = some blockIndex
  assigned : ∀ target ∈ s.needed, ∀ row, lastEntry exactRows target = some row →
    ∃ dependencies, exactAssignmentDependencies block stateCount row = some dependencies ∧
      ∀ index ∈ dependencies, Covered stateCount s index
  projected : ∀ blockIndex ∈ s.neededBlocks, ∀ projection, plan.simultaneousPlan[blockIndex]? = some projection →
    (∀ target ∈ projection.yIndices, lastEntry exactRows target = none) →
    ∀ index ∈ projectionBlockDependencies block outputPositions stateCount projection, Covered stateCount s index
  refreshed : ∀ target ∈ s.needed, lastEntry (dependencyBlocksByTarget plan) target = none →
    ∀ source, lastEntry (dependencyTargetRows plan) target = some source →
    ∀ index ∈ programDependencies block stateCount (block.sourceProgram source), Covered stateCount s index

variable {plan block exactRows outputPositions stateCount} {seeds : List Nat}

theorem Covered.mono {s s' : ClosureState} {index : Nat} (h : Covered stateCount s index)
    (hneeded : ∀ i ∈ s.needed, i ∈ s'.needed) (hstack : ∀ i ∈ s.stack, Covered stateCount s' i) :
    Covered stateCount s' index := by
  rcases h with hstate | hmem | hmem
  · exact .inl hstate
  · exact .inr (.inl (hneeded index hmem))
  · exact hstack index hmem

theorem ClosureInv.skip {index : Nat} {stack needed neededBlocks : List Nat}
    (h : ClosureInv plan block exactRows outputPositions stateCount seeds ⟨index :: stack, needed, neededBlocks⟩)
    (hskip : index < stateCount ∨ index ∈ needed) :
    ClosureInv plan block exactRows outputPositions stateCount seeds ⟨stack, needed, neededBlocks⟩ := by
  have hmono : ∀ i, Covered stateCount ⟨index :: stack, needed, neededBlocks⟩ i →
      Covered stateCount ⟨stack, needed, neededBlocks⟩ i := fun i hi =>
    hi.mono (fun _ h => h) fun j hj => by
      rcases List.mem_cons.1 hj with rfl | hj
      · exact hskip.imp id .inl
      · exact .inr (.inr hj)
  exact {
    nonstate := h.nonstate
    seeded := fun target htarget => hmono target (h.seeded target htarget)
    blocks := h.blocks
    entered := h.entered
    assigned := fun target htarget row hrow => by
      obtain ⟨dependencies, hdependencies, hall⟩ := h.assigned target htarget row hrow
      exact ⟨dependencies, hdependencies, fun i hi => hmono i (hall i hi)⟩
    projected := fun b hb projection hprojection hnone i hi => hmono i (h.projected b hb projection hprojection hnone i hi)
    refreshed := fun target htarget hnone source hsource i hi =>
      hmono i (h.refreshed target htarget hnone source hsource i hi) }

theorem ClosureInv.enter {index : Nat} {stack needed neededBlocks blocks : List Nat}
    (h : ClosureInv plan block exactRows outputPositions stateCount seeds ⟨index :: stack, needed, neededBlocks⟩)
    (dependencies : List Nat)
    (hindex : stateCount ≤ index) (hkept : ∀ b ∈ neededBlocks, b ∈ blocks)
    (hblock : ∀ b, lastEntry (dependencyBlocksByTarget plan) index = some b → b ∈ blocks)
    (hnew : ∀ b ∈ blocks, b ∈ neededBlocks ∨ lastEntry (dependencyBlocksByTarget plan) index = some b)
    (hassigned : ∀ row, lastEntry exactRows index = some row →
      ∃ reads, exactAssignmentDependencies block stateCount row = some reads ∧ ∀ i ∈ reads, i ∈ dependencies)
    (hprojected : ∀ b ∈ blocks, b ∉ neededBlocks → ∀ projection, plan.simultaneousPlan[b]? = some projection →
      (∀ target ∈ projection.yIndices, lastEntry exactRows target = none) →
      ∀ i ∈ projectionBlockDependencies block outputPositions stateCount projection, i ∈ dependencies)
    (hrefreshed : lastEntry (dependencyBlocksByTarget plan) index = none →
      ∀ source, lastEntry (dependencyTargetRows plan) index = some source →
      ∀ i ∈ programDependencies block stateCount (block.sourceProgram source), i ∈ dependencies) :
    ClosureInv plan block exactRows outputPositions stateCount seeds
      ⟨dependencies.reverse ++ stack, needed ++ [index], blocks⟩ := by
  have hmono : ∀ i, Covered stateCount ⟨index :: stack, needed, neededBlocks⟩ i →
      Covered stateCount ⟨dependencies.reverse ++ stack, needed ++ [index], blocks⟩ i := fun i hi =>
    hi.mono (fun _ h => List.mem_append_left _ h) fun j hj => by
      rcases List.mem_cons.1 hj with rfl | hj
      · exact .inr (.inl (List.mem_append_right _ (List.mem_singleton_self _)))
      · exact .inr (.inr (List.mem_append_right _ hj))
  have hpushed : ∀ i ∈ dependencies,
      Covered stateCount ⟨dependencies.reverse ++ stack, needed ++ [index], blocks⟩ i := fun i hi =>
    .inr (.inr (List.mem_append_left _ (List.mem_reverse.2 hi)))
  have hold : ∀ target ∈ needed ++ [index], target ∈ needed ∨ target = index := by simp
  exact {
    nonstate := fun target htarget => by
      rcases hold target htarget with hmem | rfl
      · exact h.nonstate target hmem
      · exact hindex
    seeded := fun target htarget => hmono target (h.seeded target htarget)
    blocks := fun target htarget b hb => by
      rcases hold target htarget with hmem | rfl
      · exact hkept b (h.blocks target hmem b hb)
      · exact hblock b hb
    entered := fun b hb => by
      rcases hnew b hb with hmem | hlast
      · obtain ⟨target, htarget, hlast⟩ := h.entered b hmem
        exact ⟨target, List.mem_append_left _ htarget, hlast⟩
      · exact ⟨index, List.mem_append_right _ (List.mem_singleton_self _), hlast⟩
    assigned := fun target htarget row hrow => by
      rcases hold target htarget with hmem | rfl
      · obtain ⟨reads, hreads, hall⟩ := h.assigned target hmem row hrow
        exact ⟨reads, hreads, fun i hi => hmono i (hall i hi)⟩
      · obtain ⟨reads, hreads, hall⟩ := hassigned row hrow
        exact ⟨reads, hreads, fun i hi => hpushed i (hall i hi)⟩
    projected := fun b hb projection hprojection hnone i hi => by
      by_cases hmem : b ∈ neededBlocks
      · exact hmono i (h.projected b hmem projection hprojection hnone i hi)
      · exact hpushed i (hprojected b hb hmem projection hprojection hnone i hi)
    refreshed := fun target htarget hnone source hsource i hi => by
      rcases hold target htarget with hmem | rfl
      · exact hmono i (h.refreshed target hmem hnone source hsource i hi)
      · exact hpushed i (hrefreshed hnone source hsource i hi) }

/-! ## Termination -/

theorem sum_filter_le {α : Type} {l : List α} {p q : α → Bool} (f : α → Nat) (h : ∀ a ∈ l, q a = true → p a = true) :
    ((l.filter q).map f).sum ≤ ((l.filter p).map f).sum := by
  have hsub : (l.filter q).Sublist (l.filter p) := by
    have : (l.filter p).filter q = l.filter q := by
      rw [List.filter_filter]
      exact List.filter_congr fun a ha => by cases hq : q a <;> simp [hq, h a ha]
    rw [← this]
    exact List.filter_sublist
  exact (hsub.map f).sum_le_sum fun _ _ => Nat.zero_le _

theorem sum_filter_drop {α : Type} {l : List α} {p q : α → Bool} (f : α → Nat)
    (h : ∀ a ∈ l, q a = true → p a = true) {a : α} (ha : a ∈ l) (hp : p a = true) (hq : q a = false) :
    f a + ((l.filter q).map f).sum ≤ ((l.filter p).map f).sum := by
  obtain ⟨before, after, rfl⟩ := List.append_of_mem ha
  have hbefore := sum_filter_le f fun b hb => h b (List.mem_append_left _ hb)
  have hafter := sum_filter_le f fun b hb => h b (List.mem_append_right _ (List.mem_cons_of_mem _ hb))
  simp only [List.filter_append, List.filter_cons, hp, hq, if_true, Bool.false_eq_true, if_false, List.map_append,
    List.map_cons, List.sum_append, List.sum_cons]
  omega

variable (plan block outputPositions stateCount) in
/-- The stack and what the rows and blocks not entered yet can still push. -/
def closureMeasure (s : ClosureState) : Nat :=
  s.stack.length + ((plan.rows.filter (·.targetIndex ∉ s.needed)).map (rowCost block stateCount)).sum +
    ((plan.simultaneousPlan.zipIdx.filter (·.2 ∉ s.neededBlocks)).map fun entry =>
      (projectionBlockDependencies block outputPositions stateCount entry.1).length).sum

theorem closureMeasure_lt {index : Nat} {stack needed neededBlocks blocks : List Nat} (dependencies : List Nat)
    (hfresh : index ∉ needed) (hkept : ∀ b ∈ neededBlocks, b ∈ blocks)
    (hcost : dependencies = [] ∨
      (∃ row ∈ plan.rows, row.targetIndex = index ∧ dependencies.length ≤ rowCost block stateCount row) ∨
      ∃ b projection, plan.simultaneousPlan[b]? = some projection ∧ b ∉ neededBlocks ∧ b ∈ blocks ∧
        dependencies = projectionBlockDependencies block outputPositions stateCount projection) :
    closureMeasure plan block outputPositions stateCount ⟨dependencies.reverse ++ stack, needed ++ [index], blocks⟩ <
      closureMeasure plan block outputPositions stateCount ⟨index :: stack, needed, neededBlocks⟩ := by
  have hrows := sum_filter_le (l := plan.rows) (p := (·.targetIndex ∉ needed)) (q := (·.targetIndex ∉ needed ++ [index]))
    (rowCost block stateCount) (by simp +contextual)
  have hblocks := sum_filter_le (l := plan.simultaneousPlan.zipIdx) (p := (·.2 ∉ neededBlocks)) (q := (·.2 ∉ blocks))
    (fun entry => (projectionBlockDependencies block outputPositions stateCount entry.1).length)
    (by intro entry _ h; simp only [decide_eq_true_eq] at h ⊢; exact fun hmem => h (hkept _ hmem))
  simp only [closureMeasure, List.length_append, List.length_reverse, List.length_cons]
  rcases hcost with rfl | ⟨row, hrow, htarget, hlength⟩ | ⟨b, projection, hprojection, hfreshBlock, hblock, rfl⟩
  · simp only [List.length_nil]
    omega
  · have hdrop := sum_filter_drop (l := plan.rows) (p := (·.targetIndex ∉ needed))
      (q := (·.targetIndex ∉ needed ++ [index])) (rowCost block stateCount) (by simp +contextual) hrow
      (by simpa [htarget] using hfresh) (by simp [htarget])
    omega
  · have hdrop := sum_filter_drop (l := plan.simultaneousPlan.zipIdx) (p := (·.2 ∉ neededBlocks)) (q := (·.2 ∉ blocks))
      (fun entry => (projectionBlockDependencies block outputPositions stateCount entry.1).length)
      (by intro entry _ h; simp only [decide_eq_true_eq] at h ⊢; exact fun hmem => h (hkept _ hmem))
      (List.mem_zipIdx_iff_getElem?.2 hprojection : (projection, b) ∈ plan.simultaneousPlan.zipIdx)
      (by simpa using hfreshBlock) (by simpa using hblock)
    dsimp only at hdrop
    omega

/-! ## One turn -/

def MissingSource (block : RefreshProgramAccess P) (exactRows : List (Nat × AlgebraicRefreshRow))
    (error : EvalSolveError) : Prop :=
  error = .invalidRow "issued exact assignment lacks its source or shape" ∧
    ∃ target row, lastEntry exactRows target = some row ∧ block.sourceProgram row.source = none

theorem programDependencies_le_rowCost (row : AlgebraicRefreshRow) :
    (programDependencies block stateCount (block.sourceProgram row.source)).length ≤ rowCost block stateCount row :=
  Nat.le_add_right ..

/-- Entering a new value keeps the invariant and lowers the measure, or finds an assignment without its program. -/
theorem ClosureInv.enterTarget (hissued : Issued plan) (hrows : issuedExactAssignmentRows plan = some exactRows)
    {index : Nat} {stack needed neededBlocks : List Nat}
    (h : ClosureInv plan block exactRows outputPositions stateCount seeds ⟨index :: stack, needed, neededBlocks⟩)
    (hindex : stateCount ≤ index) (hfresh : index ∉ needed) :
    Outcome (enterTarget plan block exactRows outputPositions stateCount ⟨stack, needed ++ [index], neededBlocks⟩ index)
      (fun s => ClosureInv plan block exactRows outputPositions stateCount seeds s ∧
        closureMeasure plan block outputPositions stateCount s <
          closureMeasure plan block outputPositions stateCount ⟨index :: stack, needed, neededBlocks⟩)
      (MissingSource block exactRows) := by
  unfold Eval.enterTarget
  cases hblock : lastEntry (dependencyBlocksByTarget plan) index with
  | none =>
    have hnotExact : ∀ row, lastEntry exactRows index ≠ some row := fun row hrow => by
      obtain ⟨-, -, -, b, hb, -⟩ := hissued.exact_block hrows hrow
      exact nomatch hblock.symm.trans hb
    cases hsource : lastEntry (dependencyTargetRows plan) index with
    | none =>
      refine .pure ⟨h.enter [] hindex (fun _ hb => hb) (by simp [hblock]) (fun _ hb => .inl hb)
        (fun row hrow => absurd hrow (hnotExact row)) (fun b hb hnot => absurd hb hnot) (by simp [hsource]), ?_⟩
      exact closureMeasure_lt [] hfresh (fun _ hb => hb) (.inl rfl)
    | some source =>
      obtain ⟨row, hrow, hpair⟩ := List.mem_map.1 (mem_of_lastEntry hsource)
      obtain ⟨rfl, rfl⟩ := Prod.mk.inj hpair
      refine .pure ⟨h.enter _ hindex (fun _ hb => hb) (by simp [hblock]) (fun _ hb => .inl hb)
        (fun row hrow => absurd hrow (hnotExact row)) (fun b hb hnot => absurd hb hnot) ?_, ?_⟩
      · intro _ source hsource' i hi
        obtain rfl := Option.some.inj (hsource.symm.trans hsource')
        exact hi
      · exact closureMeasure_lt _ hfresh (fun _ hb => hb)
          (.inr (.inl ⟨row, hrow, rfl, programDependencies_le_rowCost row⟩))
  | some b =>
    obtain ⟨projection, hprojection, htarget⟩ := hissued.blockByTarget_iff.1 hblock
    dsimp only
    by_cases hentered : b ∈ neededBlocks
    · -- the block was entered through another unknown, so it is no exact singleton
      rw [if_pos hentered]
      refine .pure ⟨h.enter [] hindex (fun _ hb => hb) ?_ (fun _ hb => .inl hb) ?_
        (fun b hb hnot => absurd hb hnot) (by simp [hblock]), ?_⟩
      · intro b' hb'
        obtain rfl := Option.some.inj (hblock.symm.trans hb')
        exact hentered
      · intro row hrow
        obtain ⟨-, -, -, b', hb', hsingle⟩ := hissued.exact_block hrows hrow
        obtain rfl := Option.some.inj (hblock.symm.trans hb')
        obtain ⟨other, hother, hlast⟩ := h.entered b hentered
        obtain ⟨projection', hprojection', hmem⟩ := hissued.blockByTarget_iff.1 hlast
        obtain rfl := Option.some.inj (hsingle.symm.trans hprojection')
        exact absurd (List.mem_singleton.1 hmem ▸ hother) hfresh
      · exact closureMeasure_lt [] hfresh (fun _ hb => hb) (.inl rfl)
    · rw [if_neg hentered]
      have hkept : ∀ b' ∈ neededBlocks, b' ∈ neededBlocks ++ [b] := fun _ hb' => List.mem_append_left _ hb'
      have hmem : ∀ b', lastEntry (dependencyBlocksByTarget plan) index = some b' → b' ∈ neededBlocks ++ [b] := by
        intro b' hb'
        obtain rfl := Option.some.inj (hblock.symm.trans hb')
        simp
      have hnew : ∀ b' ∈ neededBlocks ++ [b],
          b' ∈ neededBlocks ∨ lastEntry (dependencyBlocksByTarget plan) index = some b' := by
        intro b' hb'
        rcases List.mem_append.1 hb' with hb' | hb'
        · exact .inl hb'
        · exact .inr (List.mem_singleton.1 hb' ▸ hblock)
      have hlatest : ∀ b' ∈ neededBlocks ++ [b], b' ∉ neededBlocks → ∀ projection',
          plan.simultaneousPlan[b']? = some projection' → projection' = projection := by
        intro b' hb' hnot projection' hprojection'
        rcases hnew b' hb' with hold | hlast
        · exact absurd hold hnot
        · obtain rfl := Option.some.inj (hblock.symm.trans hlast)
          exact Option.some.inj (hprojection'.symm.trans hprojection)
      cases hexact : lastEntry exactRows index with
      | some row =>
        obtain ⟨hrow, rfl, hcertified, -⟩ := hissued.exact_block hrows hexact
        dsimp only
        cases hdependencies : exactAssignmentDependencies block stateCount row with
        | none =>
          refine .throw ⟨rfl, _, row, hexact, ?_⟩
          obtain ⟨shape, hshape⟩ := Option.isSome_iff_exists.1 (row.exact_shape hcertified)
          cases hops : block.sourceProgram row.source with
          | none => rfl
          | some ops => simp [exactAssignmentDependencies, hops, hshape] at hdependencies
        | some dependencies =>
          refine .pure ⟨h.enter _ hindex hkept hmem hnew ?_ ?_ (by simp [hblock]), ?_⟩
          · intro row' hrow'
            obtain rfl := Option.some.inj (hexact.symm.trans hrow')
            exact ⟨dependencies, hdependencies, fun _ hi => hi⟩
          · intro b' hb' hnot projection' hprojection' hnone
            obtain rfl := hlatest b' hb' hnot projection' hprojection'
            exact nomatch hexact.symm.trans (hnone _ htarget)
          · refine closureMeasure_lt _ hfresh hkept (.inr (.inl ⟨row, hrow, rfl, ?_⟩))
            simp [rowCost, hdependencies]
      | none =>
        simp only [hprojection]
        refine .pure ⟨h.enter _ hindex hkept hmem hnew (by simp [hexact]) ?_ (by simp [hblock]), ?_⟩
        · intro b' hb' hnot projection' hprojection' _ i hi
          obtain rfl := hlatest b' hb' hnot projection' hprojection'
          exact hi
        · exact closureMeasure_lt _ hfresh hkept (.inr (.inr ⟨b, projection, hprojection, hentered, by simp, rfl⟩))

variable (block outputPositions stateCount seeds) in
theorem closureLoop_spec (hissued : Issued plan) (hrows : issuedExactAssignmentRows plan = some exactRows) :
    Outcome (ExceptT.mk (loop (closureTurn plan block exactRows outputPositions stateCount)
        (closureFuel plan block outputPositions stateCount seeds) ⟨seeds.reverse, [], []⟩))
      (fun s => ClosureInv plan block exactRows outputPositions stateCount seeds s ∧ s.stack = [])
      (MissingSource block exactRows) := by
  have hinit : ClosureInv plan block exactRows outputPositions stateCount seeds ⟨seeds.reverse, [], []⟩ := {
    nonstate := by simp
    seeded := fun target htarget => .inr (.inr (List.mem_reverse.2 htarget))
    blocks := by simp
    entered := by simp
    assigned := by simp
    projected := by simp
    refreshed := by simp }
  have hturn : ∀ s, ClosureInv plan block exactRows outputPositions stateCount seeds s →
      (∃ s', closureTurn plan block exactRows outputPositions stateCount s = some (.next s') ∧
        ClosureInv plan block exactRows outputPositions stateCount seeds s' ∧
        closureMeasure plan block outputPositions stateCount s' < closureMeasure plan block outputPositions stateCount s) ∨
      ∃ r, closureTurn plan block exactRows outputPositions stateCount s = some (.done r) ∧
        match r with
        | .ok s => ClosureInv plan block exactRows outputPositions stateCount seeds s ∧ s.stack = []
        | .error error => MissingSource block exactRows error := by
    rintro ⟨_ | ⟨index, stack⟩, needed, neededBlocks⟩ h
    · exact .inr ⟨.ok ⟨[], needed, neededBlocks⟩, rfl, h, rfl⟩
    · simp only [closureTurn]
      by_cases hskip : index < stateCount ∨ index ∈ needed
      · rw [if_pos hskip]
        refine .inl ⟨_, rfl, h.skip hskip, ?_⟩
        simp only [closureMeasure, List.length_cons]
        omega
      · rw [if_neg hskip]
        rw [not_or, not_lt] at hskip
        rcases h.enterTarget hissued hrows hskip.1 hskip.2 with ⟨s', hs', hinv, hlt⟩ | ⟨error, herror, hmissing⟩
        · rw [hs']
          exact .inl ⟨s', rfl, hinv, hlt⟩
        · rw [herror]
          exact .inr ⟨.error error, rfl, hmissing⟩
  have hfuel : closureMeasure plan block outputPositions stateCount ⟨seeds.reverse, [], []⟩ <
      closureFuel plan block outputPositions stateCount seeds := by
    have hall : (plan.simultaneousPlan.zipIdx.map fun entry =>
          (projectionBlockDependencies block outputPositions stateCount entry.1).length) =
        plan.simultaneousPlan.map fun projection =>
          (projectionBlockDependencies block outputPositions stateCount projection).length := by
      conv_rhs => rw [← List.zipIdx_map_fst 0 plan.simultaneousPlan, List.map_map]
      rfl
    simp [closureMeasure, closureFuel, hall]
  obtain ⟨r, hr, hpost⟩ := loop_spec _ _ _ _ hturn _ _ hinit hfuel
  rw [hr]
  cases r with
  | ok s => exact .inl ⟨s, rfl, hpost⟩
  | error error => exact .inr ⟨error, rfl, hpost⟩

end

/-! ## The closure -/

def Loads (block : RefreshProgramAccess P) (ops : P) (index : Nat) : Prop :=
  ∃ range ∈ block.inputRanges ops, range.1 ≤ index ∧ index < range.2

def ProjectionReads (block : RefreshProgramAccess P) (outputPositions : Nat → Option Nat)
    (projection : AlgebraicProjectionBlock) (index : Nat) : Prop :=
  ∃ equationIndex ∈ projection.rows, ∃ ops ∈ rowProgram block outputPositions equationIndex, Loads block ops index

/-- The assignment of the row reads the solver value: every input, unless its registers are bounded. -/
def AssignmentReads (block : RefreshProgramAccess P) (row : AlgebraicRefreshRow) (index : Nat) : Prop :=
  ∃ ops ∈ block.sourceProgram row.source, ∃ shape ∈ row.assignmentShape,
    match block.prefixFootprint ops shape.exprEvalLen shape.valueRegisters with
    | some footprint => footprint.Contains index
    | none => Loads block ops index

def AssignedBy (plan : RefreshPlan) (target : Nat) (row : AlgebraicRefreshRow) : Prop :=
  ∃ exactRows, issuedExactAssignmentRows plan = some exactRows ∧ lastEntry exactRows target = some row

def SolvedByProjection (plan : RefreshPlan) (projection : AlgebraicProjectionBlock) : Prop :=
  ∀ target ∈ projection.yIndices, ∀ row, ¬AssignedBy plan target row

def Produced (plan : RefreshPlan) (target : Nat) : Prop :=
  (∃ row ∈ plan.rows, row.targetIndex = target) ∨ ∃ projection ∈ plan.simultaneousPlan, target ∈ projection.yIndices

/-- What a partial refresh of `needed` and `neededBlocks` must hold. -/
structure DependencyClosed (plan : RefreshPlan) (block : RefreshProgramAccess P) (initialDeps : CompactYDependencySet)
    (outputPositions : Nat → Option Nat) (stateCount : Nat) (needed neededBlocks : List Nat) : Prop where
  nonstate : ∀ target ∈ needed, stateCount ≤ target
  initial : ∀ target, stateCount ≤ target → Produced plan target →
    initialDeps.Reads target ∨ initialDeps.mayContain target = true → target ∈ needed
  enclosing : ∀ blockIndex projection, plan.simultaneousPlan[blockIndex]? = some projection →
    ∀ target ∈ projection.yIndices, target ∈ needed → blockIndex ∈ neededBlocks
  unknowns : ∀ blockIndex ∈ neededBlocks, ∀ projection, plan.simultaneousPlan[blockIndex]? = some projection →
    SolvedByProjection plan projection → ∀ target ∈ projection.yIndices, stateCount ≤ target → target ∈ needed
  residuals : ∀ blockIndex ∈ neededBlocks, ∀ projection, plan.simultaneousPlan[blockIndex]? = some projection →
    SolvedByProjection plan projection →
    ∀ index, stateCount ≤ index → ProjectionReads block outputPositions projection index → index ∈ needed
  assignments : ∀ target ∈ needed, ∀ row, AssignedBy plan target row →
    ∀ index, stateCount ≤ index → AssignmentReads block row index → index ∈ needed
  refreshes : ∀ target ∈ needed, (∀ projection ∈ plan.simultaneousPlan, target ∉ projection.yIndices) →
    ∀ source, lastEntry (dependencyTargetRows plan) target = some source → ∀ ops ∈ block.sourceProgram source,
    ∀ index, stateCount ≤ index → Loads block ops index → index ∈ needed

theorem mem_inputIndices {block : RefreshProgramAccess P} {ops : P} {index : Nat} :
    index ∈ inputIndices block ops ↔ Loads block ops index := by
  simp only [inputIndices, List.mem_flatMap, List.mem_range'_1, Loads]
  refine exists_congr fun range => and_congr_right fun _ => ?_
  omega

theorem IndexIntervals.mem_indices {footprint : IndexIntervals} {index : Nat} :
    index ∈ footprint.indices ↔ footprint.Contains index := by
  simp only [IndexIntervals.indices, List.mem_flatMap, List.mem_range'_1, IndexIntervals.Contains]
  refine exists_congr fun interval => and_congr_right fun hmem => ?_
  have := footprint.nonempty interval hmem
  omega

theorem mem_exactAssignmentDependencies {block : RefreshProgramAccess P} {stateCount : Nat} {row : AlgebraicRefreshRow}
    {dependencies : List Nat} (h : exactAssignmentDependencies block stateCount row = some dependencies) {index : Nat}
    (hstate : stateCount ≤ index) (hreads : AssignmentReads block row index) : index ∈ dependencies := by
  obtain ⟨ops, hops, shape, hshape, hreads⟩ := hreads
  rw [Option.mem_def] at hops hshape
  simp only [exactAssignmentDependencies, hops, hshape, Option.some.injEq] at h
  rw [← h, List.mem_filter]
  refine ⟨?_, by simpa using hstate⟩
  unfold assignmentReads
  split at hreads
  · exact IndexIntervals.mem_indices.2 hreads
  · exact mem_inputIndices.2 hreads

theorem mem_programDependencies {block : RefreshProgramAccess P} {stateCount : Nat} {ops : P} {index : Nat}
    (hstate : stateCount ≤ index) (hloads : Loads block ops index) :
    index ∈ programDependencies block stateCount (some ops) :=
  List.mem_filter.2 ⟨mem_inputIndices.2 hloads, by simpa using hstate⟩

theorem mem_projectionBlockDependencies {block : RefreshProgramAccess P} {outputPositions : Nat → Option Nat}
    {stateCount : Nat} {projection : AlgebraicProjectionBlock} {index : Nat} (hstate : stateCount ≤ index)
    (hreads : ProjectionReads block outputPositions projection index) :
    index ∈ projectionBlockDependencies block outputPositions stateCount projection := by
  obtain ⟨equationIndex, hequation, ops, hops, hloads⟩ := hreads
  rw [Option.mem_def] at hops
  refine List.mem_append_right _ (List.mem_flatMap.2 ⟨equationIndex, hequation, ?_⟩)
  rw [hops]
  exact mem_programDependencies hstate hloads

theorem Produced.candidate {plan : RefreshPlan} {target : Nat} (h : Produced plan target) :
    target ∈ producerCandidates plan := by
  rcases h with ⟨row, hrow, rfl⟩ | ⟨projection, hprojection, htarget⟩
  · exact List.mem_append_left _ (List.mem_map.2 ⟨_, List.mem_map_of_mem hrow, rfl⟩)
  · obtain ⟨blockIndex, hindex⟩ := List.mem_iff_getElem?.1 hprojection
    exact List.mem_append_right _
      (List.mem_map.2 ⟨(target, blockIndex), mem_dependencyBlocksByTarget.2 ⟨projection, hindex, htarget⟩, rfl⟩)

theorem ClosureInv.closed {plan : RefreshPlan} {block : RefreshProgramAccess P}
    {exactRows : List (Nat × AlgebraicRefreshRow)} {outputPositions : Nat → Option Nat} {stateCount : Nat}
    {initialDeps : CompactYDependencySet} {s : ClosureState} (hissued : Issued plan)
    (hrows : issuedExactAssignmentRows plan = some exactRows)
    (h : ClosureInv plan block exactRows outputPositions stateCount (initialDeps.seedStack (producerCandidates plan)) s)
    (hstack : s.stack = []) :
    DependencyClosed plan block initialDeps outputPositions stateCount s.needed s.neededBlocks := by
  have hcovered : ∀ index, stateCount ≤ index → Covered stateCount s index → index ∈ s.needed := by
    rintro index hstate (hlt | hneeded | hmem)
    · omega
    · exact hneeded
    · rw [hstack] at hmem
      cases hmem
  have hprojected : ∀ projection, SolvedByProjection plan projection →
      ∀ target ∈ projection.yIndices, lastEntry exactRows target = none := by
    intro projection hsolved target htarget
    cases hlast : lastEntry exactRows target with
    | none => rfl
    | some row => exact absurd ⟨exactRows, hrows, hlast⟩ (hsolved target htarget row)
  exact {
    nonstate := h.nonstate
    initial := fun target hstate hproduced hreads => by
      have hmay : initialDeps.mayContain target = true := hreads.elim CompactYDependencySet.mayContain_of_reads id
      exact hcovered target hstate
        (h.seeded target (CompactYDependencySet.mem_seedStack.2 ⟨hproduced.candidate, hmay⟩))
    enclosing := fun blockIndex projection hprojection target htarget hneeded =>
      h.blocks target hneeded blockIndex (hissued.blockByTarget_iff.2 ⟨projection, hprojection, htarget⟩)
    unknowns := fun blockIndex hblock projection hprojection hsolved target htarget hstate =>
      hcovered target hstate (h.projected blockIndex hblock projection hprojection (hprojected projection hsolved) target
        (List.mem_append_left _ htarget))
    residuals := fun blockIndex hblock projection hprojection hsolved index hstate hreads =>
      hcovered index hstate (h.projected blockIndex hblock projection hprojection (hprojected projection hsolved) index
        (mem_projectionBlockDependencies hstate hreads))
    assignments := fun target htarget row hassigned index hstate hreads => by
      obtain ⟨exactRows', hrows', hlast⟩ := hassigned
      obtain rfl := Option.some.inj (hrows'.symm.trans hrows)
      obtain ⟨dependencies, hdependencies, hall⟩ := h.assigned target htarget row hlast
      exact hcovered index hstate (hall index (mem_exactAssignmentDependencies hdependencies hstate hreads))
    refreshes := fun target htarget hblocks source hsource ops hops index hstate hloads => by
      have hnone : lastEntry (dependencyBlocksByTarget plan) target = none := by
        refine Option.eq_none_iff_forall_ne_some.2 fun blockIndex hlast => ?_
        obtain ⟨projection, hprojection, hmem⟩ := hissued.blockByTarget_iff.1 hlast
        exact hblocks projection (List.mem_of_getElem? hprojection) hmem
      refine hcovered index hstate (h.refreshed target htarget hnone source hsource index ?_)
      rw [Option.mem_def.1 hops]
      exact mem_programDependencies hstate hloads }

/-- A block solved by projection whose row loads the state, its own unknown and the target of an exact assignment. -/
def projectedBeforeAssigned : RefreshPlan where
  simultaneousPlan := [⟨[0], [1]⟩, ⟨[1], [2]⟩]
  simultaneousBlockIndices := [0, 1]
  valueProjectionPlan := [⟨[0], [1]⟩]
  rows := [⟨⟨0, 1⟩, 1, 2, some (.direct 2 0 1), true, by simp [TargetAssignmentShape.targetYIndex],
    fun _ => Option.isSome_some⟩]
  causalSeedRows := []
  staticCausalSeedRows := []
  dynamicCausalSeedRows := []
  valueStages := [.projectionBlock 0 [⟨[0], [1]⟩] [], .exactAssignments [] [0]]
  causalSolutionCertified := true

def twoPrograms : RefreshProgramAccess (List (Nat × Nat)) where
  program index := [[(0, 3)], [(0, 1), (3, 4)]][index]?
  sourceIndex source := some source.program
  footprint _ _ _ := none
  prefixFootprint _ _ _ := none
  inputRanges := id

theorem projectedBeforeAssigned_issued : Issued projectedBeforeAssigned where
  disjoint := by simp [projectedBeforeAssigned]
  exact := by simp [projectedBeforeAssigned, RefreshStage.exactPositions]

end Rumoca.Eval
