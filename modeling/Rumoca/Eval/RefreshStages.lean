import Rumoca.Lib.DependencyOrder
import Rumoca.Lib.Entries
import Rumoca.Eval.RefreshRows
import Mathlib.Tactic
/-!
# The stages of a value refresh

`build_refresh_stages` walks the blocks of a projection plan. A singleton block
with a certified exact row becomes an assignment when everything it reads is
available; the assignments of a run are held back and flushed as one stage,
static rows before dynamic ones. Every other block becomes a projection stage.
-/

namespace Rumoca.Eval

open Rumoca.Lib

/-! ## The model -/

/-- A `Result` of the source inside a computation that may also panic. -/
def ofResult {α : Type} (x : Except String α) : Fallible α := ExceptT.mk (some x)

theorem ofResult_bind {α β : Type} (x : Except String α) (f : α → Except String β) :
    ofResult (x >>= f) = ofResult x >>= fun a => ofResult (f a) := by
  cases x <;> rfl

/-- What a row reads among the targets of a map, as the caller's closure answers it. -/
abbrev RowDependencies := AlgebraicRefreshRow → List (Nat × Nat) → Option (List Nat)

/-- The certified exact rows by equation and target. The later of two rows with one key stands first. -/
def exactRows (rows : List AlgebraicRefreshRow) : List ((Nat × Nat) × Nat) :=
  ((rows.zipIdx.filter (·.1.exactAssignmentCertified)).map fun entry =>
    ((entry.1.equationIndex, entry.1.targetIndex), entry.2)).reverse

def exactSingletonRow (block : AlgebraicProjectionBlock) (exact : List ((Nat × Nat) × Nat)) : Option Nat :=
  match block.rows, block.yIndices with
  | [equationIndex], [targetIndex] => exact.lookup (equationIndex, targetIndex)
  | _, _ => none

/-- The warm-start rows of a projection stage: exact assignments of its unknowns with a constant coefficient. -/
def projectionSeedRows (block : AlgebraicProjectionBlock) (rows : List AlgebraicRefreshRow) :
    Except String RefreshRowSelection :=
  RefreshRowSelection.checked rows.length ((rows.zipIdx.filter fun entry =>
    entry.1.targetIndex ∈ block.yIndices && entry.1.exactAssignmentCertified &&
      entry.1.assignmentShape.any (·.constantCoefficient)).map (·.2))

def staticTargets (rows : List AlgebraicRefreshRow) (staticRows : RefreshRowSelection) : List Nat :=
  staticRows.filterMap fun index => rows[index]?.map (·.targetIndex)

def planTargets (plan : AlgebraicProjectionPlan) : List (Nat × Nat) :=
  collectEntries ((plan.flatMap (·.yIndices)).map fun target => (target, target))

def isStatic (rows : List AlgebraicRefreshRow) (targets : List Nat) (row : Nat) : Bool :=
  rows[row]?.any (·.targetIndex ∈ targets)

def pushCausalSeedSweep (rows : List AlgebraicRefreshRow) (targets : List Nat) : Except String (List RefreshStage) :=
  if rows = [] then .ok []
  else do
    let positions := List.range rows.length
    let staticRows ← RefreshRowSelection.checked rows.length (positions.filter (isStatic rows targets))
    let dynamicRows ← RefreshRowSelection.checked rows.length (positions.filter (!isStatic rows targets ·))
    pure [.causalSeedSweep staticRows dynamicRows]

def openingSweep (rows : List AlgebraicRefreshRow) (targets : List Nat) (certified : Bool) :
    Except String (List RefreshStage) :=
  if certified then pushCausalSeedSweep rows targets else .ok []

/-- `available` holds the targets of the blocks passed so far. -/
structure StageState where
  stages : List RefreshStage
  assignments : List Nat
  available : List Nat

/-- The rows of a run in the order they are executed in: row order under a certificate, plan order without. -/
def runOrder (certified : Bool) (assignments : List Nat) : List Nat :=
  if certified then assignments.insertionSort (· ≤ ·) else assignments

def flushAssignments (rows : List AlgebraicRefreshRow) (targets : List Nat) (certified : Bool) (s : StageState) :
    Except String StageState :=
  if s.assignments = [] then .ok s
  else do
    let ordered := runOrder certified s.assignments
    let staticRows ← RefreshRowSelection.checked rows.length (ordered.filter (isStatic rows targets))
    let dynamicRows ← RefreshRowSelection.checked rows.length (ordered.filter (!isStatic rows targets ·))
    pure { s with stages := s.stages ++ [.exactAssignments staticRows dynamicRows], assignments := [] }

def inputsAvailable (inputs : Option (List Nat)) (available : List Nat) : Bool :=
  inputs.any fun inputs => inputs.all (· ∈ available)

def stageBlock (plan : AlgebraicProjectionPlan) (blockIndices : List Nat) (rows : List AlgebraicRefreshRow)
    (staticRows : RefreshRowSelection) (certified : Bool) (dependencies : RowDependencies) (s : StageState)
    (entry : AlgebraicProjectionBlock × Nat) : Fallible StageState := do
  let admitted ← match exactSingletonRow entry.1 (exactRows rows) with
    | none => pure none
    | some position => do
      let row ← orPanic rows[position]?
      pure (if certified || inputsAvailable (dependencies row (planTargets plan)) s.available then
        some (position, row.targetIndex) else none)
  match admitted with
  | some (position, target) =>
    pure { s with assignments := s.assignments ++ [position], available := s.available ++ [target] }
  | none => do
    let s ← ofResult (flushAssignments rows (staticTargets rows staticRows) certified s)
    let seedRows ← ofResult (projectionSeedRows entry.1 rows)
    pure { s with
      stages := s.stages ++ [.projectionBlock (blockIndices.getD entry.2 entry.2) [entry.1] seedRows]
      available := s.available ++ entry.1.yIndices }

def buildRefreshStages (plan : AlgebraicProjectionPlan) (blockIndices : List Nat) (rows : List AlgebraicRefreshRow)
    (staticRows : RefreshRowSelection) (certified : Bool) (dependencies : RowDependencies) :
    Fallible (List RefreshStage) := do
  let sweep ← ofResult (openingSweep rows (staticTargets rows staticRows) certified)
  let s ← plan.zipIdx.foldlM (stageBlock plan blockIndices rows staticRows certified dependencies) ⟨sweep, [], []⟩
  let s ← ofResult (flushAssignments rows (staticTargets rows staticRows) certified s)
  pure s.stages

/-! ## What the stages do -/

/-- One step of the schedule: a row is assigned, or a block is projected. -/
inductive Placement where
  | assignment (row : Nat)
  | projection (block : AlgebraicProjectionBlock)
deriving DecidableEq, Repr

def Placement.targets (rows : List AlgebraicRefreshRow) : Placement → List Nat
  | assignment row => (rows[row]?.map (·.targetIndex)).toList
  | projection block => block.yIndices

def Placement.block (rows : List AlgebraicRefreshRow) : Placement → Option AlgebraicProjectionBlock
  | assignment row => rows[row]?.map fun row => ⟨[row.equationIndex], [row.targetIndex]⟩
  | projection block => some block

/-- The steps of a stage in execution order: static rows, then dynamic rows. A seed sweep settles nothing. -/
def RefreshStage.placements : RefreshStage → List Placement
  | causalSeedSweep .. => []
  | exactAssignments staticRows dynamicRows => (staticRows ++ dynamicRows).map .assignment
  | projectionBlock _ plan _ => plan.map .projection

def placements (stages : List RefreshStage) : List Placement := stages.flatMap RefreshStage.placements

def Assigns (rows : List AlgebraicRefreshRow) (position : Nat) (entry : AlgebraicProjectionBlock × Nat) : Prop :=
  ∃ row, rows[position]? = some row ∧ row.exactAssignmentCertified = true ∧
    entry.1 = ⟨[row.equationIndex], [row.targetIndex]⟩

/-- The stages take the blocks in order: a run of blocks by one assignment each, or one block by one projection. -/
inductive StagesCover (rows : List AlgebraicRefreshRow) (blockIndices targets : List Nat) (certified : Bool) :
    List RefreshStage → List (AlgebraicProjectionBlock × Nat) → Prop
  | nil : StagesCover rows blockIndices targets certified [] []
  | assignments {stages run segment entries} (hrun : run ≠ []) (hassigns : List.Forall₂ (Assigns rows) run segment)
      (rest : StagesCover rows blockIndices targets certified stages entries) :
      StagesCover rows blockIndices targets certified
        (.exactAssignments ((runOrder certified run).filter (isStatic rows targets))
          ((runOrder certified run).filter (!isStatic rows targets ·)) :: stages)
        (segment ++ entries)
  | projection {stages entries} (entry : AlgebraicProjectionBlock × Nat) (seedRows : RefreshRowSelection)
      (rest : StagesCover rows blockIndices targets certified stages entries) :
      StagesCover rows blockIndices targets certified
        (.projectionBlock (blockIndices.getD entry.2 entry.2) [entry.1] seedRows :: stages) (entry :: entries)

/-- An assignment comes after steps that settle everything it reads. -/
def Supplied (rows : List AlgebraicRefreshRow) (dependencies : RowDependencies) (targets : List (Nat × Nat)) :
    List Placement → Prop :=
  Stepwise fun before step => ∀ position, step = .assignment position →
    ∃ row inputs, rows[position]? = some row ∧ dependencies row targets = some inputs ∧
      ∀ input ∈ inputs, ∃ earlier ∈ before, input ∈ earlier.targets rows

def StaticClosed (rows : List AlgebraicRefreshRow) (dependencies : RowDependencies) (targets : List (Nat × Nat))
    (static : List Nat) : Prop :=
  ∀ row ∈ rows, row.targetIndex ∈ static → ∀ inputs ∈ dependencies row targets, ∀ input ∈ inputs, input ∈ static

/-! ## Single steps -/

section
variable {plan : AlgebraicProjectionPlan} {blockIndices : List Nat} {rows : List AlgebraicRefreshRow}
  {staticRows : RefreshRowSelection} {certified : Bool} {dependencies : RowDependencies} {targets : List Nat}

/-- The one error of the stages: a row position that `u32` cannot hold. -/
def CatalogExceeded (rows : List AlgebraicRefreshRow) (message : String) : Prop :=
  message = "continuous refresh row catalog exceeds u32" ∧ u32Limit < rows.length

theorem checked_outcome {indices : List Nat} (hnodup : indices.Nodup) (hbound : ∀ index ∈ indices, index < rows.length) :
    Outcome (ofResult (RefreshRowSelection.checked rows.length indices)) (· = indices) (CatalogExceeded rows) := by
  rcases RefreshRowSelection.checked_spec hnodup hbound with ⟨hok, -⟩ | ⟨herror, index, hmem, hlimit⟩
  · rw [hok]
    exact .pure rfl
  · rw [herror]
    exact .throw ⟨rfl, lt_of_le_of_lt hlimit (hbound index hmem)⟩

theorem exactSingletonRow_spec {block : AlgebraicProjectionBlock} {position : Nat}
    (h : exactSingletonRow block (exactRows rows) = some position) :
    ∃ row, rows[position]? = some row ∧ row.exactAssignmentCertified = true ∧
      block = ⟨[row.equationIndex], [row.targetIndex]⟩ := by
  obtain ⟨blockRows, yIndices⟩ := block
  unfold exactSingletonRow at h
  split at h
  · next equationIndex targetIndex hrows hindices =>
    obtain ⟨before, after, hsplit, -⟩ := List.lookup_eq_some_iff.1 h
    have hmem : ((equationIndex, targetIndex), position) ∈ exactRows rows := by rw [hsplit]; simp
    simp only [exactRows, List.mem_reverse, List.mem_map, List.mem_filter] at hmem
    obtain ⟨⟨row, index⟩, ⟨hzip, hexact⟩, heq⟩ := hmem
    obtain ⟨hkey, rfl⟩ := Prod.mk.inj heq
    obtain ⟨rfl, rfl⟩ := Prod.mk.inj hkey
    obtain rfl : blockRows = _ := hrows
    obtain rfl : yIndices = _ := hindices
    exact ⟨row, List.mem_zipIdx_iff_getElem?.1 hzip, hexact, rfl⟩
  · cases h

theorem Assigns.lt {position : Nat} {entry : AlgebraicProjectionBlock × Nat} (h : Assigns rows position entry) :
    position < rows.length := by
  obtain ⟨row, hrow, -⟩ := h
  exact (List.getElem?_eq_some_iff.1 hrow).1

def PlanDisjoint (entries : List (AlgebraicProjectionBlock × Nat)) : Prop :=
  entries.Pairwise fun a b => a.1.yIndices.Disjoint b.1.yIndices

theorem forall₂_assigns_lt {run : List Nat} {segment : List (AlgebraicProjectionBlock × Nat)}
    (h : List.Forall₂ (Assigns rows) run segment) : ∀ position ∈ run, position < rows.length := by
  induction h with
  | nil => simp
  | cons ha _ ih =>
    intro position hmem
    rcases List.mem_cons.1 hmem with rfl | hmem
    · exact ha.lt
    · exact ih position hmem

theorem forall₂_assigns_nodup {run : List Nat} {segment : List (AlgebraicProjectionBlock × Nat)}
    (h : List.Forall₂ (Assigns rows) run segment) (hdisjoint : PlanDisjoint segment) : run.Nodup := by
  induction h with
  | nil => exact List.nodup_nil
  | @cons position entry run segment ha hrest ih =>
    obtain ⟨hfirst, hpairs⟩ := List.pairwise_cons.1 hdisjoint
    refine List.nodup_cons.2 ⟨fun hmem => ?_, ih hpairs⟩
    obtain ⟨other, hother, hassigns⟩ : ∃ other ∈ segment, Assigns rows position other := by
      obtain ⟨i, hi, rfl⟩ := List.mem_iff_getElem.1 hmem
      have hlt : i < segment.length := hrest.length_eq ▸ hi
      exact ⟨segment[i], List.getElem_mem _, hrest.get hi hlt⟩
    obtain ⟨row, hrow, -, hblock⟩ := ha
    obtain ⟨row', hrow', -, hblock'⟩ := hassigns
    obtain rfl := Option.some.inj (hrow.symm.trans hrow')
    have hmeet := hfirst other hother
    rw [hblock, hblock'] at hmeet
    exact hmeet (List.mem_singleton_self _) (List.mem_singleton_self _)

theorem mem_runOrder {run : List Nat} {position : Nat} : position ∈ runOrder certified run ↔ position ∈ run := by
  unfold runOrder
  split <;> simp

theorem runOrder_nodup {run : List Nat} (h : run.Nodup) : (runOrder certified run).Nodup := by
  unfold runOrder
  split
  · exact (List.perm_insertionSort (· ≤ ·) run).nodup_iff.2 h
  · exact h

def flushed (rows : List AlgebraicRefreshRow) (targets : List Nat) (certified : Bool) (s : StageState) : StageState :=
  if s.assignments = [] then s
  else { s with
    stages := s.stages ++ [.exactAssignments ((runOrder certified s.assignments).filter (isStatic rows targets))
      ((runOrder certified s.assignments).filter (!isStatic rows targets ·))]
    assignments := [] }

theorem flushAssignments_outcome {s : StageState} (hnodup : s.assignments.Nodup)
    (hbound : ∀ position ∈ s.assignments, position < rows.length) :
    Outcome (ofResult (flushAssignments rows targets certified s)) (· = flushed rows targets certified s)
      (CatalogExceeded rows) := by
  unfold flushAssignments flushed
  split
  · exact .pure rfl
  · have hchecked : ∀ keep : Nat → Bool, Outcome
        (ofResult (RefreshRowSelection.checked rows.length ((runOrder certified s.assignments).filter keep)))
        (· = (runOrder certified s.assignments).filter keep) (CatalogExceeded rows) := fun keep =>
      checked_outcome ((runOrder_nodup hnodup).filter _) fun position hmem =>
        hbound position (mem_runOrder.1 (List.mem_filter.1 hmem).1)
    simp only [ofResult_bind]
    refine (hchecked _).bind ?_
    rintro _ rfl
    refine (hchecked _).bind ?_
    rintro _ rfl
    exact .pure rfl

theorem projectionSeedRows_outcome (block : AlgebraicProjectionBlock) :
    Outcome (ofResult (projectionSeedRows block rows)) (fun _ => True) (CatalogExceeded rows) := by
  have hpositions : rows.zipIdx.map (·.2) = List.range rows.length := by
    rw [List.zipIdx_map_snd, List.range_eq_range']
  refine (checked_outcome ?_ ?_).mono (fun _ _ => trivial) fun _ h => h
  · exact (hpositions ▸ List.nodup_range).sublist (List.filter_sublist.map _)
  · intro position hmem
    obtain ⟨entry, hentry, rfl⟩ := List.mem_map.1 hmem
    exact (List.getElem?_eq_some_iff.1 (List.mem_zipIdx_iff_getElem?.1 (List.mem_filter.1 hentry).1)).1

theorem pushCausalSeedSweep_outcome :
    Outcome (ofResult (pushCausalSeedSweep rows targets)) (fun sweep => placements sweep = []) (CatalogExceeded rows) := by
  unfold pushCausalSeedSweep
  split
  · exact .pure rfl
  · have hchecked : ∀ keep : Nat → Bool, Outcome
        (ofResult (RefreshRowSelection.checked rows.length ((List.range rows.length).filter keep)))
        (· = (List.range rows.length).filter keep) (CatalogExceeded rows) := fun keep =>
      checked_outcome (List.nodup_range.filter _) fun position hmem => List.mem_range.1 (List.mem_filter.1 hmem).1
    simp only [ofResult_bind]
    exact (hchecked _).bind fun _ _ => (hchecked _).bind fun _ _ => .pure rfl

/-! ## Coverage -/

theorem placements_append (a b : List RefreshStage) : placements (a ++ b) = placements a ++ placements b :=
  List.flatMap_append

theorem StagesCover.append {stages tail : List RefreshStage} {entries rest : List (AlgebraicProjectionBlock × Nat)}
    (h : StagesCover rows blockIndices targets certified stages entries)
    (htail : StagesCover rows blockIndices targets certified tail rest) :
    StagesCover rows blockIndices targets certified (stages ++ tail) (entries ++ rest) := by
  induction h with
  | nil => exact htail
  | assignments hrun hassigns _ ih =>
    rw [List.cons_append, List.append_assoc]
    exact .assignments hrun hassigns ih
  | projection entry seedRows _ ih => exact .projection entry seedRows ih

theorem perm_runOrder (run : List Nat) : (runOrder certified run).Perm run := by
  unfold runOrder
  split
  · exact List.perm_insertionSort _ run
  · exact .refl run

theorem forall₂_assigns_blocks {run : List Nat} {segment : List (AlgebraicProjectionBlock × Nat)}
    (h : List.Forall₂ (Assigns rows) run segment) :
    run.map (fun position => (Placement.assignment position).block rows) = segment.map fun entry => some entry.1 := by
  induction h with
  | nil => rfl
  | cons ha _ ih =>
    obtain ⟨row, hrow, -, hblock⟩ := ha
    rw [List.map_cons, List.map_cons, ih, Placement.block, hrow, hblock]
    rfl

theorem StagesCover.perm {stages : List RefreshStage} {entries : List (AlgebraicProjectionBlock × Nat)}
    (h : StagesCover rows blockIndices targets certified stages entries) :
    ((placements stages).map (Placement.block rows)).Perm (entries.map fun entry => some entry.1) := by
  induction h with
  | nil => exact .refl _
  | @assignments stages run segment entries _ hassigns _ ih =>
    have hsplit : ((runOrder certified run).filter (isStatic rows targets) ++
        (runOrder certified run).filter (!isStatic rows targets ·)).Perm run :=
      (List.filter_append_perm _ _).trans (perm_runOrder run)
    have hblocks := hsplit.map fun position => (Placement.assignment position).block rows
    rw [forall₂_assigns_blocks hassigns] at hblocks
    rw [placements, List.flatMap_cons, List.map_append, List.map_append]
    refine List.Perm.append ?_ ih
    rw [RefreshStage.placements, List.map_map]
    exact hblocks
  | projection entry seedRows _ ih => exact ih.cons _

theorem StagesCover.ascending {stages : List RefreshStage} {entries : List (AlgebraicProjectionBlock × Nat)}
    (h : StagesCover rows blockIndices targets certified stages entries) (hcertified : certified = true)
    (hdisjoint : PlanDisjoint entries) :
    ∀ staticRows dynamicRows, RefreshStage.exactAssignments staticRows dynamicRows ∈ stages →
      staticRows.Pairwise (· < ·) ∧ dynamicRows.Pairwise (· < ·) := by
  induction h with
  | nil => intro _ _ h; cases h
  | @assignments stages run segment entries _ hassigns _ ih =>
    intro staticRows dynamicRows hmem
    rcases List.mem_cons.1 hmem with heq | hmem
    · obtain ⟨rfl, rfl⟩ := RefreshStage.exactAssignments.inj heq
      have hnodup := forall₂_assigns_nodup hassigns (List.pairwise_append.1 hdisjoint).1
      have hle : (runOrder certified run).Pairwise (· ≤ ·) := by
        rw [runOrder, if_pos hcertified]
        exact List.pairwise_insertionSort (· ≤ ·) run
      have hlt : (runOrder certified run).Pairwise (· < ·) :=
        (hle.and (runOrder_nodup hnodup)).imp fun h => lt_of_le_of_ne h.1 h.2
      exact ⟨hlt.filter _, hlt.filter _⟩
    · exact ih (List.pairwise_append.1 hdisjoint).2.1 staticRows dynamicRows hmem
  | projection entry seedRows _ ih =>
    intro staticRows dynamicRows hmem
    rcases List.mem_cons.1 hmem with heq | hmem
    · cases heq
    · exact ih (List.pairwise_cons.1 hdisjoint).2 staticRows dynamicRows hmem

/-! ## Splitting a run -/

theorem half_eq_append_cons {run : List Nat} {before after : List Placement} {step : Placement} {keep : Nat → Bool}
    (h : (run.filter keep).map Placement.assignment = before ++ step :: after) :
    ∃ pre position post, run = pre ++ position :: post ∧ step = .assignment position ∧ keep position = true ∧
      before = (pre.filter keep).map Placement.assignment := by
  obtain ⟨front, back, hfilter, rfl, hback⟩ := List.map_eq_append_iff.1 h
  obtain ⟨position, back, rfl, rfl, -⟩ := List.map_eq_cons_iff.1 hback
  obtain ⟨pre, post, rfl, rfl, hpost⟩ := List.filter_eq_append_iff.1 hfilter
  obtain ⟨mid, tail, rfl, hmid, hkeep, -⟩ := List.filter_eq_cons_iff.1 hpost
  refine ⟨pre ++ mid, position, tail, by simp, rfl, hkeep, ?_⟩
  rw [List.filter_append, List.filter_eq_nil_iff.2 hmid, List.append_nil]

/-- Running the static rows of a supplied run first keeps it supplied, as they read static targets only. -/
theorem Supplied.split {done : List Placement} {run : List Nat} {planTargets : List (Nat × Nat)}
    (h : Supplied rows dependencies planTargets (done ++ run.map .assignment))
    (hstatic : StaticClosed rows dependencies planTargets targets) :
    Supplied rows dependencies planTargets
      (done ++ (run.filter (isStatic rows targets) ++ run.filter (!isStatic rows targets ·)).map .assignment) := by
  -- what a row of the run reads is settled before it or by a row held back earlier
  have hrun : ∀ pre position post, run = pre ++ position :: post → ∃ row inputs, rows[position]? = some row ∧
      dependencies row planTargets = some inputs ∧ ∀ input ∈ inputs,
        (∃ earlier ∈ done, input ∈ earlier.targets rows) ∨
          ∃ earlier ∈ pre, input ∈ (Placement.assignment earlier).targets rows := by
    rintro pre position post rfl
    obtain ⟨row, inputs, hrow, hinputs, hall⟩ := h (done ++ pre.map .assignment) (.assignment position)
      (post.map .assignment) (by simp) position rfl
    refine ⟨row, inputs, hrow, hinputs, fun input hinput => ?_⟩
    obtain ⟨step, hstep, htarget⟩ := hall input hinput
    rcases List.mem_append.1 hstep with hdone | hpre
    · exact .inl ⟨step, hdone, htarget⟩
    · obtain ⟨earlier, hearlier, rfl⟩ := List.mem_map.1 hpre
      exact .inr ⟨earlier, hearlier, htarget⟩
  have hisStatic : ∀ {position input : Nat}, input ∈ (Placement.assignment position).targets rows →
      input ∈ targets → isStatic rows targets position = true := by
    intro position input hinput hmem
    obtain ⟨row, hrow, rfl⟩ : ∃ row, rows[position]? = some row ∧ row.targetIndex = input := by
      simpa [Placement.targets] using hinput
    simpa [isStatic, hrow] using hmem
  rw [List.map_append, ← List.append_assoc]
  refine Stepwise.append (Stepwise.append (Stepwise.of_append h) ?_) ?_
  · -- a static row reads the static targets only, and those of its run stand before it
    rintro before step after hsplit position rfl
    obtain ⟨pre, _, post, rfl, heq, hkeep, rfl⟩ := half_eq_append_cons hsplit
    obtain rfl := Placement.assignment.inj heq
    obtain ⟨row, inputs, hrow, hinputs, hall⟩ := hrun pre position post rfl
    refine ⟨row, inputs, hrow, hinputs, fun input hinput => ?_⟩
    rcases hall input hinput with ⟨earlier, hdone, htarget⟩ | ⟨earlier, hearlier, htarget⟩
    · exact ⟨earlier, List.mem_append_left _ hdone, htarget⟩
    · have hkind : row.targetIndex ∈ targets := by simpa [isStatic, hrow] using hkeep
      have hmem := hstatic row (List.mem_of_getElem? hrow) hkind inputs hinputs input hinput
      exact ⟨.assignment earlier, List.mem_append_right _
        (List.mem_map_of_mem (List.mem_filter.2 ⟨hearlier, hisStatic htarget hmem⟩)), htarget⟩
  · -- a dynamic row finds every static row of its run done
    rintro before step after hsplit position rfl
    obtain ⟨pre, _, post, rfl, heq, -, rfl⟩ := half_eq_append_cons hsplit
    obtain rfl := Placement.assignment.inj heq
    obtain ⟨row, inputs, hrow, hinputs, hall⟩ := hrun pre position post rfl
    refine ⟨row, inputs, hrow, hinputs, fun input hinput => ?_⟩
    rcases hall input hinput with ⟨earlier, hdone, htarget⟩ | ⟨earlier, hearlier, htarget⟩
    · exact ⟨earlier, List.mem_append_left _ (List.mem_append_left _ hdone), htarget⟩
    · refine ⟨.assignment earlier, ?_, htarget⟩
      cases hkind : isStatic rows targets earlier with
      | true =>
        exact List.mem_append_left _ (List.mem_append_right _
          (List.mem_map_of_mem (List.mem_filter.2 ⟨List.mem_append_left _ hearlier, hkind⟩)))
      | false =>
        exact List.mem_append_right _ (List.mem_map_of_mem (List.mem_filter.2 ⟨hearlier, by simp [hkind]⟩))

/-! ## The walk over the blocks -/

/-- After the blocks `pre`: the stages cover a prefix of them, the run held back assigns the rest, and what is
available is settled. -/
structure StageInv (plan : AlgebraicProjectionPlan) (blockIndices : List Nat) (rows : List AlgebraicRefreshRow)
    (targets : List Nat) (certified : Bool) (dependencies : RowDependencies) (sweep : List RefreshStage)
    (pre : List (AlgebraicProjectionBlock × Nat)) (s : StageState) : Prop where
  covered : ∃ body closed pending, s.stages = sweep ++ body ∧ pre = closed ++ pending ∧
    StagesCover rows blockIndices targets certified body closed ∧ List.Forall₂ (Assigns rows) s.assignments pending
  available : ∀ target ∈ s.available, ∃ step ∈ placements s.stages ++ s.assignments.map .assignment,
    target ∈ step.targets rows
  supplied : certified = false → StaticClosed rows dependencies (planTargets plan) targets →
    Supplied rows dependencies (planTargets plan) (placements s.stages ++ s.assignments.map .assignment)

variable {sweep : List RefreshStage} {pre : List (AlgebraicProjectionBlock × Nat)} {s : StageState}

theorem StageInv.run_nodup (h : StageInv plan blockIndices rows targets certified dependencies sweep pre s)
    (hdisjoint : PlanDisjoint pre) :
    s.assignments.Nodup ∧ ∀ position ∈ s.assignments, position < rows.length := by
  obtain ⟨body, closed, pending, -, rfl, -, hassigns⟩ := h.covered
  exact ⟨forall₂_assigns_nodup hassigns (List.pairwise_append.1 hdisjoint).2.1, forall₂_assigns_lt hassigns⟩

theorem StageInv.flush (h : StageInv plan blockIndices rows targets certified dependencies sweep pre s) :
    StageInv plan blockIndices rows targets certified dependencies sweep pre (flushed rows targets certified s) ∧
      (flushed rows targets certified s).assignments = [] := by
  unfold flushed
  split
  · next hnone => exact ⟨h, hnone⟩
  · next hsome =>
    obtain ⟨body, closed, pending, hstages, rfl, hcover, hassigns⟩ := h.covered
    have hplaced : placements (s.stages ++ [.exactAssignments
          ((runOrder certified s.assignments).filter (isStatic rows targets))
          ((runOrder certified s.assignments).filter (!isStatic rows targets ·))]) =
        placements s.stages ++ ((runOrder certified s.assignments).filter (isStatic rows targets) ++
          (runOrder certified s.assignments).filter (!isStatic rows targets ·)).map .assignment := by
      rw [placements_append]
      simp only [placements, List.flatMap_cons, List.flatMap_nil, List.append_nil, RefreshStage.placements]
    refine ⟨⟨⟨body ++ [_], closed ++ pending, [], by rw [hstages, List.append_assoc], by simp, ?_, .nil⟩, ?_, ?_⟩, rfl⟩
    · have hlast := @StagesCover.assignments rows blockIndices targets certified _ _ _ _ hsome hassigns .nil
      rw [List.append_nil] at hlast
      exact hcover.append hlast
    · intro target htarget
      obtain ⟨step, hstep, hmem⟩ := h.available target htarget
      refine ⟨step, ?_, hmem⟩
      simp only [List.map_nil, List.append_nil, hplaced]
      rcases List.mem_append.1 hstep with hdone | hrun
      · exact List.mem_append_left _ hdone
      · obtain ⟨position, hposition, rfl⟩ := List.mem_map.1 hrun
        refine List.mem_append_right _ (List.mem_map_of_mem ?_)
        rw [(List.filter_append_perm _ _).mem_iff]
        exact mem_runOrder.2 hposition
    · intro hcertified hstatic
      simp only [List.map_nil, List.append_nil, hplaced]
      have horder : runOrder certified s.assignments = s.assignments := by simp [runOrder, hcertified]
      rw [horder]
      exact (h.supplied hcertified hstatic).split hstatic

variable (plan blockIndices rows staticRows certified dependencies s) in
theorem stageBlock_cases (entry : AlgebraicProjectionBlock × Nat) :
    (∃ position row, rows[position]? = some row ∧ row.exactAssignmentCertified = true ∧
      entry.1 = ⟨[row.equationIndex], [row.targetIndex]⟩ ∧
      (certified || inputsAvailable (dependencies row (planTargets plan)) s.available) = true ∧
      stageBlock plan blockIndices rows staticRows certified dependencies s entry =
        pure { s with assignments := s.assignments ++ [position], available := s.available ++ [row.targetIndex] }) ∨
    stageBlock plan blockIndices rows staticRows certified dependencies s entry = (do
      let s ← ofResult (flushAssignments rows (staticTargets rows staticRows) certified s)
      let seedRows ← ofResult (projectionSeedRows entry.1 rows)
      pure { s with
        stages := s.stages ++ [.projectionBlock (blockIndices.getD entry.2 entry.2) [entry.1] seedRows]
        available := s.available ++ entry.1.yIndices }) := by
  cases hexact : exactSingletonRow entry.1 (exactRows rows) with
  | none =>
    refine .inr ?_
    simp only [stageBlock, hexact, pure_bind]
  | some position =>
    obtain ⟨row, hrow, hcertificate, hblock⟩ := exactSingletonRow_spec hexact
    cases hadmit : certified || inputsAvailable (dependencies row (planTargets plan)) s.available with
    | true =>
      refine .inl ⟨position, row, hrow, hcertificate, hblock, hadmit, ?_⟩
      simp only [stageBlock, hexact, hrow, orPanic_some, pure_bind, hadmit, if_true]
    | false =>
      refine .inr ?_
      simp only [stageBlock, hexact, hrow, orPanic_some, pure_bind, hadmit, Bool.false_eq_true, if_false]

theorem StageInv.turn {entry : AlgebraicProjectionBlock × Nat}
    (h : StageInv plan blockIndices rows (staticTargets rows staticRows) certified dependencies sweep pre s)
    (hdisjoint : PlanDisjoint pre) :
    Outcome (stageBlock plan blockIndices rows staticRows certified dependencies s entry)
      (StageInv plan blockIndices rows (staticTargets rows staticRows) certified dependencies sweep (pre ++ [entry]))
      (CatalogExceeded rows) := by
  rcases stageBlock_cases plan blockIndices rows staticRows certified dependencies s entry with
    ⟨position, row, hrow, hexact, hblock, hadmit, hturn⟩ | hturn
  · rw [hturn]
    refine .pure ⟨?_, ?_, ?_⟩
    · obtain ⟨body, closed, pending, hstages, rfl, hcover, hassigns⟩ := h.covered
      refine ⟨body, closed, pending ++ [entry], hstages, by simp, hcover, ?_⟩
      exact List.rel_append hassigns (.cons ⟨row, hrow, hexact, hblock⟩ .nil)
    · intro target htarget
      rw [List.map_append, ← List.append_assoc]
      rcases List.mem_append.1 htarget with hold | hnew
      · obtain ⟨step, hstep, hmem⟩ := h.available target hold
        exact ⟨step, List.mem_append_left _ hstep, hmem⟩
      · exact ⟨.assignment position, by simp, by simpa [Placement.targets, hrow] using hnew⟩
    · intro hcertified hstatic
      rw [List.map_append, ← List.append_assoc]
      refine (h.supplied hcertified hstatic).snoc fun _ heq => ?_
      obtain rfl := Placement.assignment.inj heq
      rw [hcertified, Bool.false_or] at hadmit
      obtain ⟨inputs, hinputs, hall⟩ := (Option.any_eq_true _ _).1 hadmit
      refine ⟨row, inputs, hrow, hinputs, fun input hinput => ?_⟩
      exact h.available input (by simpa using List.all_eq_true.1 hall input hinput)
  · rw [hturn]
    obtain ⟨hnodup, hbound⟩ := h.run_nodup hdisjoint
    refine (flushAssignments_outcome hnodup hbound).bind ?_
    rintro _ rfl
    obtain ⟨hflush, hnone⟩ := h.flush
    refine (projectionSeedRows_outcome entry.1).bind fun seedRows _ => .pure ⟨?_, ?_, ?_⟩
    · obtain ⟨body, closed, pending, hstages, rfl, hcover, hassigns⟩ := hflush.covered
      rw [hnone] at hassigns
      obtain rfl := List.forall₂_nil_left_iff.1 hassigns
      refine ⟨body ++ [_], closed ++ [entry], [], by rw [hstages, List.append_assoc], by simp, ?_, hnone ▸ .nil⟩
      exact hcover.append (.projection entry seedRows .nil)
    · intro target htarget
      rw [hnone, placements_append]
      rcases List.mem_append.1 htarget with hold | hnew
      · obtain ⟨step, hstep, hmem⟩ := hflush.available target hold
        rw [hnone, List.map_nil, List.append_nil] at hstep
        exact ⟨step, by simp [hstep], hmem⟩
      · exact ⟨.projection entry.1, by simp [placements, RefreshStage.placements], hnew⟩
    · intro hcertified hstatic
      have hsupplied := hflush.supplied hcertified hstatic
      rw [hnone, List.map_nil, List.append_nil] at hsupplied
      rw [hnone, List.map_nil, List.append_nil, placements_append]
      exact hsupplied.snoc fun _ heq => by cases heq

end

theorem planDisjoint_zipIdx {plan : AlgebraicProjectionPlan}
    (hdisjoint : plan.Pairwise fun a b => a.yIndices.Disjoint b.yIndices) : PlanDisjoint plan.zipIdx := by
  have hmap : (plan.zipIdx.map (·.1)).Pairwise fun a b => a.yIndices.Disjoint b.yIndices := by
    rwa [List.zipIdx_map_fst]
  exact (List.pairwise_map (f := fun entry : AlgebraicProjectionBlock × Nat => entry.1)).1 hmap

/-- The walk from the first block to the last flush: after the opening sweep the stages cover the plan. -/
theorem buildRefreshStages_run (plan : AlgebraicProjectionPlan) (blockIndices : List Nat)
    (rows : List AlgebraicRefreshRow) (staticRows : RefreshRowSelection) (certified : Bool)
    (dependencies : RowDependencies) (hdisjoint : plan.Pairwise fun a b => a.yIndices.Disjoint b.yIndices) :
    Outcome (buildRefreshStages plan blockIndices rows staticRows certified dependencies)
      (fun stages => ∃ sweep body, stages = sweep ++ body ∧ placements sweep = [] ∧
        StagesCover rows blockIndices (staticTargets rows staticRows) certified body plan.zipIdx ∧
        (certified = false →
          StaticClosed rows dependencies (planTargets plan) (staticTargets rows staticRows) →
          Supplied rows dependencies (planTargets plan) (placements stages)))
      (CatalogExceeded rows) := by
  have hentries := planDisjoint_zipIdx hdisjoint
  have hopening : Outcome (ofResult (openingSweep rows (staticTargets rows staticRows) certified))
      (fun sweep => placements sweep = []) (CatalogExceeded rows) := by
    unfold openingSweep
    split
    · exact pushCausalSeedSweep_outcome
    · exact .pure rfl
  refine hopening.bind fun sweep hsweep => ?_
  have hwalk := Outcome.foldlM (f := stageBlock plan blockIndices rows staticRows certified dependencies)
    (l := plan.zipIdx) (s := ⟨sweep, [], []⟩) (Q := CatalogExceeded rows)
    (StageInv plan blockIndices rows (staticTargets rows staticRows) certified dependencies sweep)
    (fun pre entry post s hsplit h => h.turn (List.pairwise_append.1 (hsplit ▸ hentries)).1)
    ⟨⟨[], [], [], by simp, rfl, .nil, .nil⟩, by simp, fun _ _ => by
      rw [hsweep]
      exact Stepwise.nil⟩
  refine hwalk.bind fun s h => ?_
  obtain ⟨hnodup, hbound⟩ := h.run_nodup hentries
  refine (flushAssignments_outcome hnodup hbound).bind ?_
  rintro _ rfl
  obtain ⟨hflush, hnone⟩ := h.flush
  obtain ⟨body, closed, pending, hstages, hplan, hcover, hassigns⟩ := hflush.covered
  rw [hnone] at hassigns
  obtain rfl := List.forall₂_nil_left_iff.1 hassigns
  rw [List.append_nil] at hplan
  obtain rfl := hplan
  refine .pure ⟨sweep, body, hstages, hsweep, hcover, fun hcertified hstatic => ?_⟩
  have hsupplied := hflush.supplied hcertified hstatic
  rwa [hnone, List.map_nil, List.append_nil] at hsupplied

/-- The stages of a value refresh. The blocks of the plan are settled once each and in plan order, by one certified
exact assignment or by one projection stage. Without the causal certificate an assignment runs after steps that
settle everything its row reads, if static rows read static targets only. With a certificate the static and the
dynamic rows of each run are in row order. The one error is a catalog that `u32` cannot index. -/
theorem buildRefreshStages_spec (plan : AlgebraicProjectionPlan) (blockIndices : List Nat)
    (rows : List AlgebraicRefreshRow) (staticRows : RefreshRowSelection) (certified : Bool)
    (dependencies : RowDependencies) (hdisjoint : plan.Pairwise fun a b => a.yIndices.Disjoint b.yIndices) :
    Outcome (buildRefreshStages plan blockIndices rows staticRows certified dependencies)
      (fun stages => ∃ sweep body, stages = sweep ++ body ∧ placements sweep = [] ∧
        StagesCover rows blockIndices (staticTargets rows staticRows) certified body plan.zipIdx ∧
        ((placements stages).map (Placement.block rows)).Perm (plan.map some) ∧
        (certified = false →
          StaticClosed rows dependencies (planTargets plan) (staticTargets rows staticRows) →
          Supplied rows dependencies (planTargets plan) (placements stages)) ∧
        (certified = true → ∀ staticRows dynamicRows, RefreshStage.exactAssignments staticRows dynamicRows ∈ body →
          staticRows.Pairwise (· < ·) ∧ dynamicRows.Pairwise (· < ·)))
      (CatalogExceeded rows) := by
  refine (buildRefreshStages_run plan blockIndices rows staticRows certified dependencies hdisjoint).mono ?_ fun _ h => h
  rintro _ ⟨sweep, body, rfl, hsweep, hcover, hsupplied⟩
  refine ⟨sweep, body, rfl, hsweep, hcover, ?_, hsupplied, fun hcertified => ?_⟩
  · have hperm := hcover.perm
    rw [placements_append, hsweep, List.nil_append]
    have hmap : (plan.zipIdx.map fun entry => some entry.1) = plan.map some := by
      conv_rhs => rw [← List.zipIdx_map_fst 0 plan, List.map_map]
      rfl
    rwa [← hmap]
  · exact hcover.ascending hcertified (planDisjoint_zipIdx hdisjoint)

def exactRow (target : Nat) : AlgebraicRefreshRow :=
  ⟨⟨0, target⟩, target, target, some (.zero target 0), true, by simp [TargetAssignmentShape.targetYIndex], by simp⟩

def readsNext : RowDependencies := fun row _ => some (if row.targetIndex = 0 then [1] else [])

theorem buildRefreshStages_exactRows :
    ∃ stages, buildRefreshStages [⟨[1], [1]⟩, ⟨[0], [0]⟩] [0, 1] [exactRow 0, exactRow 1] [1] false readsNext =
        pure stages ∧
      ((placements stages).map (Placement.block [exactRow 0, exactRow 1])).Perm
        [some ⟨[1], [1]⟩, some ⟨[0], [0]⟩] ∧
      Supplied [exactRow 0, exactRow 1] readsNext (planTargets [⟨[1], [1]⟩, ⟨[0], [0]⟩]) (placements stages) := by
  rcases buildRefreshStages_spec [⟨[1], [1]⟩, ⟨[0], [0]⟩] [0, 1] [exactRow 0, exactRow 1] [1] false readsNext (by simp)
    with ⟨stages, hstages, _, _, _, _, _, hperm, hsupplied, -⟩ | ⟨message, -, -, hlimit⟩
  · refine ⟨stages, hstages, hperm, hsupplied rfl ?_⟩
    intro row hrow hstatic inputs hinputs input hinput
    have htargets : staticTargets [exactRow 0, exactRow 1] [1] = [1] := by decide
    rw [htargets, List.mem_singleton] at hstatic
    obtain rfl := Option.some.inj hinputs
    simp [hstatic] at hinput
  · exact absurd hlimit (by decide)

end Rumoca.Eval
