import Rumoca.Lib.Straightline
import Rumoca.Solve.RegisterFlow
/-!
# What operations read and write

The registers that an operation reads are those that its checks require,
wherever in a program it stands. A program with valid register flow is one of
well-shaped operations that each read registers written before. `Semantics`
interprets the operations: it gives what an operation writes, stores and does to
the rest of the state, and an operation that cannot fault only computes.
-/

namespace Rumoca.Solve

open OpSources Rumoca.Lib

/-! ## The checks, without their errors -/

def SourceCheck.outline : SourceCheck → Option Reg
  | .require register => some register
  | .reject _ => none

def outline (checks : List SourceCheck) : List (Option Reg) := checks.map SourceCheck.outline

theorem outline_append (a b : List SourceCheck) : outline (a ++ b) = outline a ++ outline b := List.map_append

theorem outline_flatMap {α : Type} {f g : α → List SourceCheck} {xs : List α} (h : ∀ x ∈ xs, outline (f x) = outline (g x)) :
    outline (xs.flatMap f) = outline (xs.flatMap g) := by
  induction xs with
  | nil => rfl
  | cons x xs ih =>
    rw [List.flatMap_cons, List.flatMap_cons, outline_append, outline_append, h x List.mem_cons_self,
      ih fun y hy => h y (List.mem_cons_of_mem x hy)]

def OpSources.named (cx : OpSources) (operation : String) (opIndex : Nat) : OpSources := { cx with operation, opIndex }

namespace OpSources

variable (cx : OpSources) (n : String) (i : Nat)

theorem outline_requireRange (start : Reg) (len : Nat) :
    outline ((cx.named n i).requireRange start len) = outline (cx.requireRange start len) := by
  unfold requireRange
  split_ifs <;> rfl

theorem outline_requireStridedRegisters (start : Reg) (count stride : Nat) :
    outline ((cx.named n i).requireStridedRegisters start count stride) = outline (cx.requireStridedRegisters start count stride) := by
  unfold requireStridedRegisters
  split_ifs <;> rfl

theorem outline_outputRange (start : Reg) (count stride : Nat) :
    outline ((cx.named n i).outputRange start count stride) = outline (cx.outputRange start count stride) := by
  unfold outputRange
  split_ifs <;> rfl

theorem outline_projection (p len : Nat) : outline ((cx.named n i).projection p len) = outline (cx.projection p len) := by
  unfold projection
  split_ifs <;> rfl

theorem conditionalCaptureCount_named : (cx.named n i).conditionalCaptureCount = cx.conditionalCaptureCount := rfl

theorem outline_conditionalCapture (index : Nat) :
    outline ((cx.named n i).conditionalCapture index) = outline (cx.conditionalCapture index) := by
  unfold conditionalCapture
  rw [conditionalCaptureCount_named]
  cases cx.conditionalCaptureCount with
  | none => rfl
  | some captureCount => exact outline_projection cx n i index captureCount

theorem outline_conditionalCaptureRange (index count : Nat) :
    outline ((cx.named n i).conditionalCaptureRange index count) = outline (cx.conditionalCaptureRange index count) := by
  unfold conditionalCaptureRange
  rw [conditionalCaptureCount_named]
  cases cx.conditionalCaptureCount with
  | none => rfl
  | some captureCount =>
    simp only
    split_ifs <;> rfl

theorem outline_indexedAxis (axis : Nat × TensorIndex) :
    outline ((cx.named n i).indexedAxis axis) = outline (cx.indexedAxis axis) := by
  unfold indexedAxis
  cases axis.2 with
  | constant coordinate =>
    simp only
    split_ifs <;> rfl
  | runtime register => rfl

theorem outline_indexedRegister (base : Reg) (stride : Nat) (dimensions : List Nat) (indices : List TensorIndex) :
    outline ((cx.named n i).indexedRegister base stride dimensions indices) = outline (cx.indexedRegister base stride dimensions indices) := by
  unfold indexedRegister
  by_cases h : dimensions = [] ∨ dimensions.length ≠ indices.length
  · rw [if_pos h, if_pos h]
    rfl
  · rw [if_neg h, if_neg h]
    cases (if 0 ∈ dimensions then none else checkedProduct 1 dimensions) with
    | none => rfl
    | some count =>
      simp only
      split_ifs
      · rfl
      · rfl
      · rfl
      · rw [outline_append, outline_append, outline_flatMap fun axis _ => outline_indexedAxis cx n i axis]

theorem outline_typedCallSources (inputStarts : List Reg) (inputs : List Nat) (count : Option Nat) (reason : String) :
    outline ((cx.named n i).typedCallSources inputStarts inputs count reason) =
      outline (cx.typedCallSources inputStarts inputs count reason) := by
  unfold typedCallSources
  split_ifs
  · rfl
  · exact outline_flatMap fun x _ => outline_requireRange cx n i x.1 x.2

theorem outline_matrixMultiply (lhs rhs : Reg) (rows inner columns lanes : Nat) :
    outline ((cx.named n i).matrixMultiply lhs rhs rows inner columns lanes) =
      outline (cx.matrixMultiply lhs rhs rows inner columns lanes) := by
  unfold matrixMultiply
  by_cases h : rows = 0 ∨ inner = 0 ∨ columns = 0 ∨ ¬ cx.lanesInRange lanes
  · have h' : rows = 0 ∨ inner = 0 ∨ columns = 0 ∨ ¬ (cx.named n i).lanesInRange lanes := h
    rw [if_pos h, if_pos h']
    rfl
  · have h' : ¬ (rows = 0 ∨ inner = 0 ∨ columns = 0 ∨ ¬ (cx.named n i).lanesInRange lanes) := h
    rw [if_neg h, if_neg h']
    cases checkedProduct rows [inner, lanes] with
    | none => rfl
    | some lhsCount =>
      cases checkedProduct inner [columns, lanes] with
      | none => rfl
      | some rhsCount => simp only [outline_append, outline_requireRange]

theorem outline_tensorBinary (op : BinaryOp) (lhs lhsStride rhs rhsStride count lanes : Nat) :
    outline ((cx.named n i).tensorBinary op lhs lhsStride rhs rhsStride count lanes) =
      outline (cx.tensorBinary op lhs lhsStride rhs rhsStride count lanes) := by
  unfold tensorBinary
  by_cases h : count = 0 ∨ ¬ cx.lanesInRange lanes ∨ op ∉ [.add, .sub, .mul, .div]
  · have h' : count = 0 ∨ ¬ (cx.named n i).lanesInRange lanes ∨ op ∉ [.add, .sub, .mul, .div] := h
    rw [if_pos h, if_pos h']
    rfl
  · have h' : ¬ (count = 0 ∨ ¬ (cx.named n i).lanesInRange lanes ∨ op ∉ [.add, .sub, .mul, .div]) := h
    rw [if_neg h, if_neg h']
    cases stridedCount count lhsStride lanes with
    | none => rfl
    | some lhsCount =>
      cases stridedCount count rhsStride lanes with
      | none => rfl
      | some rhsCount => simp only [outline_append, outline_requireRange]

theorem outline_tensorCross (lhs rhs : Reg) (lanes : Nat) :
    outline ((cx.named n i).tensorCross lhs rhs lanes) = outline (cx.tensorCross lhs rhs lanes) := by
  unfold tensorCross
  by_cases h : ¬ cx.lanesInRange lanes
  · have h' : ¬ (cx.named n i).lanesInRange lanes := h
    rw [if_pos h, if_pos h']
    rfl
  · have h' : ¬ ¬ (cx.named n i).lanesInRange lanes := h
    rw [if_neg h, if_neg h']
    cases checkedUsize (3 * lanes) with
    | none => rfl
    | some count => simp only [outline_append, outline_requireRange]

theorem outline_tensorTranspose (src : Reg) (rows columns elementWidth lanes : Nat) :
    outline ((cx.named n i).tensorTranspose src rows columns elementWidth lanes) =
      outline (cx.tensorTranspose src rows columns elementWidth lanes) := by
  unfold tensorTranspose
  cases checkedProduct rows [columns, elementWidth, lanes] with
  | none => rfl
  | some count =>
    simp only
    by_cases h : rows = 0 ∨ columns = 0 ∨ elementWidth = 0 ∨ ¬ cx.lanesInRange lanes
    · have h' : rows = 0 ∨ columns = 0 ∨ elementWidth = 0 ∨ ¬ (cx.named n i).lanesInRange lanes := h
      rw [if_pos h, if_pos h']
      rfl
    · have h' : ¬ (rows = 0 ∨ columns = 0 ∨ elementWidth = 0 ∨ ¬ (cx.named n i).lanesInRange lanes) := h
      rw [if_neg h, if_neg h', outline_requireRange]

theorem outline_concatenateSources (dimensions : List Nat) (axis lanes : Nat) (sources : List TensorConcatenateSource)
    (axisExtent : Nat) :
    outline ((cx.named n i).concatenateSources dimensions axis lanes sources axisExtent) =
      outline (cx.concatenateSources dimensions axis lanes sources axisExtent) := by
  induction sources generalizing axisExtent with
  | nil =>
    unfold concatenateSources
    split_ifs <;> rfl
  | cons source rest ih =>
    unfold concatenateSources
    split_ifs
    · rfl
    · cases checkedU32 (axisExtent + (source.dimensions[axis]?).getD 0) with
      | none => rfl
      | some extent =>
        cases checkedProduct lanes source.dimensions with
        | none => rfl
        | some count => simp only [outline_append, outline_requireRange, ih]

theorem outline_tensorConcatenate (sources : List TensorConcatenateSource) (dimensions : List Nat) (axis lanes : Nat) :
    outline ((cx.named n i).tensorConcatenate sources dimensions axis lanes) =
      outline (cx.tensorConcatenate sources dimensions axis lanes) := by
  unfold tensorConcatenate
  by_cases h : sources = [] ∨ dimensions = [] ∨ dimensions.length ≤ axis ∨ ¬ cx.lanesInRange lanes
  · have h' : sources = [] ∨ dimensions = [] ∨ dimensions.length ≤ axis ∨ ¬ (cx.named n i).lanesInRange lanes := h
    rw [if_pos h, if_pos h']
    rfl
  · have h' : ¬ (sources = [] ∨ dimensions = [] ∨ dimensions.length ≤ axis ∨ ¬ (cx.named n i).lanesInRange lanes) := h
    rw [if_neg h, if_neg h', outline_concatenateSources]

theorem outline_updateAxes (valueStart : Reg) (axes : List (Nat × TensorUpdateSubscript)) (valueCount : Nat) :
    outline ((cx.named n i).updateAxes valueStart axes valueCount) =
      outline (cx.updateAxes valueStart axes valueCount) := by
  induction axes generalizing valueCount with
  | nil => exact outline_requireRange cx n i valueStart valueCount
  | cons axis rest ih =>
    obtain ⟨extent, subscript⟩ := axis
    cases subscript with
    | whole =>
      unfold updateAxes
      cases checkedUsize (valueCount * extent) with
      | none => rfl
      | some count => exact ih count
    | index index =>
      cases index with
      | constant coordinate =>
        unfold updateAxes
        split_ifs
        · rfl
        · exact ih valueCount
      | runtime register =>
        unfold updateAxes
        exact congrArg (some register :: ·) (ih valueCount)
    | slice start dimensions =>
      unfold updateAxes
      split_ifs
      · rfl
      · cases checkedProduct 1 dimensions with
        | none => rfl
        | some count =>
          simp only [outline_append, outline_requireRange]
          cases checkedUsize (valueCount * count) with
          | none => rfl
          | some total => simp only [ih]

theorem outline_tensorUpdate (base value : Reg) (dimensions : List Nat) (subscripts : List TensorUpdateSubscript)
    (lanes : Nat) : outline ((cx.named n i).tensorUpdate base value dimensions subscripts lanes) =
      outline (cx.tensorUpdate base value dimensions subscripts lanes) := by
  unfold tensorUpdate
  by_cases h : dimensions = [] ∨ dimensions.length ≠ subscripts.length ∨ ¬ cx.lanesInRange lanes ∨ 0 ∈ dimensions
  · have h' : dimensions = [] ∨ dimensions.length ≠ subscripts.length ∨ ¬ (cx.named n i).lanesInRange lanes ∨
        0 ∈ dimensions := h
    rw [if_pos h, if_pos h']
    rfl
  · have h' : ¬ (dimensions = [] ∨ dimensions.length ≠ subscripts.length ∨ ¬ (cx.named n i).lanesInRange lanes ∨
        0 ∈ dimensions) := h
    rw [if_neg h, if_neg h']
    cases checkedProduct lanes dimensions with
    | none => rfl
    | some count => simp only [outline_append, outline_requireRange, outline_updateAxes]

theorem outline_functionFoldSources {F : Type} (initial capture : Reg) (activation : Option Reg)
    (program : FunctionFoldProgram F) : outline ((cx.named n i).functionFoldSources initial capture activation program) =
      outline (cx.functionFoldSources initial capture activation program) := by
  unfold functionFoldSources
  split_ifs
  · rfl
  · simp only [outline_append, outline_requireRange]
  · simp only [outline_append, outline_requireRange]

theorem outline_leafSources {F : Type} (op : LinearOp F) :
    outline ((cx.named n i).leafSources op) = outline (cx.leafSources op) := by
  cases op with
  | loadFunctionConditionalCapture _ index => exact outline_conditionalCapture cx n i index
  | loadFunctionConditionalCaptureRange _ start count => exact outline_conditionalCaptureRange cx n i start count
  | storeOutputRange start count stride => exact outline_outputRange cx n i start count stride
  | loadIndexedRegister _ base stride dimensions indices => exact outline_indexedRegister cx n i base stride dimensions indices
  | pureCall _ starts site => exact outline_typedCallSources cx n i starts site.inputs site.outputScalarCount _
  | pureCallObservation _ starts site =>
    exact outline_typedCallSources cx n i starts site.valueSite.inputs (some site.outputScalarCount) _
  | pureCallDirectional _ starts site => exact outline_typedCallSources cx n i starts site.inputs site.outputScalarCount _
  | linearSolveComponent _ matrix rhs size component =>
    unfold leafSources
    simp only [outline_append, outline_projection]
    cases checkedUsize (size * size) with
    | none => rfl
    | some matrixLen => simp only [outline_append, outline_requireRange]
  | dotProduct _ lhs rhs count lhsStride rhsStride =>
    unfold leafSources
    simp only [outline_append, outline_requireStridedRegisters]
  | matrixMultiply _ lhs rhs rows inner columns lanes => exact outline_matrixMultiply cx n i lhs rhs rows inner columns lanes
  | tensorBinary _ op lhs rhs count lhsStride rhsStride lanes =>
    exact outline_tensorBinary cx n i op lhs lhsStride rhs rhsStride count lanes
  | tensorCross _ lhs rhs lanes => exact outline_tensorCross cx n i lhs rhs lanes
  | tensorTranspose _ src rows columns elementWidth lanes =>
    exact outline_tensorTranspose cx n i src rows columns elementWidth lanes
  | tensorConcatenate _ sources dimensions axis lanes =>
    exact outline_tensorConcatenate cx n i sources dimensions axis lanes
  | tensorUpdate _ base value dimensions subscripts lanes =>
    exact outline_tensorUpdate cx n i base value dimensions subscripts lanes
  | tensorFill _ value count lanes =>
    unfold leafSources
    by_cases h : count = 0 ∨ ¬ cx.lanesInRange lanes
    · have h' : count = 0 ∨ ¬ (cx.named n i).lanesInRange lanes := h
      simp only [if_pos h, if_pos h']
      rfl
    · have h' : ¬ (count = 0 ∨ ¬ (cx.named n i).lanesInRange lanes) := h
      simp only [if_neg h, if_neg h', outline_requireRange]
  | tensorIdentity _ size lanes =>
    unfold leafSources
    by_cases h : size = 0 ∨ ¬ cx.lanesInRange lanes ∨ usizeLimit ≤ size * size
    · have h' : size = 0 ∨ ¬ (cx.named n i).lanesInRange lanes ∨ usizeLimit ≤ size * size := h
      simp only [if_pos h, if_pos h']
      rfl
    · have h' : ¬ (size = 0 ∨ ¬ (cx.named n i).lanesInRange lanes ∨ usizeLimit ≤ size * size) := h
      simp only [if_neg h, if_neg h']
  | tensorLoad _ input start count seedStart lanes =>
    unfold leafSources
    by_cases h : count = 0 ∨ ¬ cx.lanesInRange lanes ∨ (lanes = 1 ∧ seedStart.isSome)
    · have h' : count = 0 ∨ ¬ (cx.named n i).lanesInRange lanes ∨ (lanes = 1 ∧ seedStart.isSome) := h
      simp only [if_pos h, if_pos h']
      rfl
    · have h' : ¬ (count = 0 ∨ ¬ (cx.named n i).lanesInRange lanes ∨ (lanes = 1 ∧ seedStart.isSome)) := h
      simp only [if_neg h, if_neg h']
  | randomInitialState _ _ localSeed globalSeed len index =>
    unfold leafSources
    simp only [outline_append, outline_projection]
  | randomResult _ _ start len => exact outline_requireRange cx n i start len
  | randomState _ _ start len index =>
    unfold leafSources
    simp only [outline_append, outline_projection, outline_requireRange]
  | functionFold _ initial capture program => exact outline_functionFoldSources cx n i initial capture none program
  | guardedFunctionFold _ initial capture activation program =>
    exact outline_functionFoldSources cx n i initial capture (some activation) program
  | _ => rfl

end OpSources

theorem outline_opSources {F : Type} (maxLanes : Nat) (captures : Option Nat) (i j : Nat) (op : LinearOp F) :
    outline (opSources maxLanes captures i op) = outline (opSources maxLanes captures j op) := by
  cases op with
  | functionConditional dst captureStart program =>
    unfold opSources
    cases hv : validateConditional maxLanes program with
    | none =>
      simp only
      split_ifs
      · rfl
      · exact outline_requireRange ⟨"FunctionConditional", j, captures, maxLanes⟩ "FunctionConditional" i captureStart _
    | some error => cases error <;> rfl
  | _ =>
    unfold opSources
    exact outline_leafSources ⟨_, j, captures, maxLanes⟩ _ i _

/-! ## Reads and writes -/

theorem collected_eq_outline (checks : List SourceCheck) : collected checks = (outline checks).mapM id := by
  induction checks with
  | nil => rfl
  | cons check rest ih =>
    cases check with
    | reject error => rfl
    | require register =>
      have hcons : outline (.require register :: rest) = some register :: outline rest := rfl
      rw [collected, ih, hcons, List.mapM_cons]
      cases (outline rest).mapM id <;> rfl

theorem collected_opSources {F : Type} (maxLanes : Nat) (captures : Option Nat) (i j : Nat) (op : LinearOp F) :
    collected (opSources maxLanes captures i op) = collected (opSources maxLanes captures j op) := by
  rw [collected_eq_outline, collected_eq_outline, outline_opSources maxLanes captures i j]

theorem firstFailure_eq_none_iff {defined : Reg → Bool} {operation : String} {opIndex : Nat} {checks : List SourceCheck} :
    firstFailure defined operation opIndex checks = none ↔
      ∃ registers, collected checks = some registers ∧ ∀ r ∈ registers, defined r = true := by
  induction checks with
  | nil => simp [firstFailure, collected]
  | cons check rest ih =>
    cases check with
    | reject error => simp [firstFailure, collected]
    | require register =>
      rw [firstFailure, collected]
      by_cases hd : defined register = true
      · rw [if_pos hd, ih]
        simp [Option.map_eq_some_iff, hd]
      · rw [if_neg hd]
        simp [hd]

namespace LinearOp

variable {F : Type}

def sources (op : LinearOp F) : List Reg := (collected (opSources 2 none 0 op)).getD []

def destination (op : LinearOp F) : List Reg :=
  match op.dstRegister with
  | some start => List.range' start op.dstRegisterCount
  | none => []

/-- The checks of the operation hold but for the registers that they require, and it writes registers. -/
structure WellShaped (op : LinearOp F) : Prop where
  sources : (collected (opSources 2 none 0 op)).isSome
  destination : ∀ start, op.dstRegister = some start →
    op.dstRegisterCount ≠ 0 ∧ start + (op.dstRegisterCount - 1) < u32Limit

theorem WellShaped.collected {op : LinearOp F} (h : op.WellShaped) (i : Nat) :
    collected (opSources 2 none i op) = some op.sources := by
  obtain ⟨registers, hregisters⟩ := Option.isSome_iff_exists.1 h.sources
  rw [collected_opSources 2 none i 0, LinearOp.sources, hregisters]
  rfl

theorem mem_destination {op : LinearOp F} {start : Reg} (h : op.dstRegister = some start) (r : Reg) :
    r ∈ op.destination ↔ start ≤ r ∧ r < start + op.dstRegisterCount := by
  rw [destination, h, List.mem_range'_1]

end LinearOp

theorem LinearOp.destination_none {F : Type} {op : LinearOp F} (h : op.dstRegister = none) : op.destination = [] := by
  rw [LinearOp.destination, h]

def accesses (F : Type) : Accesses (LinearOp F) where
  reads := LinearOp.sources
  writes := LinearOp.destination

theorem defineRange_iff {F : Type} {op : LinearOp F} {start : Reg} (h : op.dstRegister = some start)
    (defined : Reg → Bool) (r : Reg) :
    defineRange defined start op.dstRegisterCount r = true ↔ defined r = true ∨ r ∈ op.destination := by
  rw [LinearOp.mem_destination h, defineRange]
  simp

theorem Flows.congr {Op : Type} {a : Accesses Op} {p : List Op} {defined defined' : Nat → Prop}
    (h : ∀ r, defined r ↔ defined' r) : a.Flows defined p ↔ a.Flows defined' p := by
  rw [show defined = defined' from funext fun r => propext (h r)]

theorem deriveFrom_isOk_iff {F : Type} (p : List (LinearOp F)) (opIndex : Nat) (initialized : Reg → Bool)
    (last : Option Reg) : (deriveFrom 2 none p opIndex initialized last).isOk = true ↔
      (∀ op ∈ p, op.WellShaped) ∧ (accesses F).Flows (initialized · = true) p := by
  induction p generalizing opIndex initialized last with
  | nil => simp [deriveFrom, Accesses.Flows, pure, Except.pure, Except.isOk, Except.toBool]
  | cons op rest ih =>
    rw [deriveFrom]
    simp only
    cases hfail : firstFailure initialized op.kindName opIndex (opSources 2 none opIndex op) with
    | some error =>
      refine iff_of_false (by simp [throw, throwThe, MonadExceptOf.throw, Except.isOk, Except.toBool]) fun h => ?_
      have hop := h.1 op List.mem_cons_self
      have hnone : firstFailure initialized op.kindName opIndex (opSources 2 none opIndex op) = none :=
        firstFailure_eq_none_iff.2 ⟨op.sources, hop.collected opIndex, h.2.1⟩
      exact absurd (hfail.symm.trans hnone) (by simp)
    | none =>
      obtain ⟨registers, hcollected, hregisters⟩ := firstFailure_eq_none_iff.1 hfail
      have hsources : op.sources = registers := by
        rw [LinearOp.sources, collected_opSources 2 none 0 opIndex, hcollected]
        rfl
      have hsome : (collected (opSources 2 none 0 op)).isSome := by
        rw [collected_opSources 2 none 0 opIndex, hcollected]
        rfl
      have hreads : ∀ r ∈ (accesses F).reads op, initialized r = true := by
        rw [show (accesses F).reads op = registers from hsources]
        exact hregisters
      cases hdst : op.dstRegister with
      | none =>
        have hwrites : ∀ r, initialized r = true ↔ initialized r = true ∨ r ∈ (accesses F).writes op := by
          intro r
          rw [show (accesses F).writes op = [] from LinearOp.destination_none hdst]
          simp
        simp only [ih, List.forall_mem_cons, Accesses.Flows, Flows.congr hwrites]
        refine ⟨fun h => ⟨⟨⟨hsome, by simp [hdst]⟩, h.1⟩, hreads, h.2⟩, fun h => ⟨h.1.2, h.2.2⟩⟩
      | some start =>
        simp only
        split_ifs with hcount hlimit
        · refine iff_of_false (by simp [throw, throwThe, MonadExceptOf.throw, Except.isOk, Except.toBool]) fun h => ?_
          exact ((h.1 op List.mem_cons_self).destination start hdst).1 hcount
        · simp only [ih, List.forall_mem_cons, Accesses.Flows]
          have hwrites := fun r => defineRange_iff hdst initialized r
          rw [Flows.congr hwrites]
          refine ⟨fun h => ⟨⟨⟨hsome, fun start' hstart' => ?_⟩, h.1⟩, hreads, h.2⟩, fun h => ⟨h.1.2, h.2.2⟩⟩
          cases hdst.symm.trans hstart'
          exact ⟨hcount, hlimit⟩
        · refine iff_of_false (by simp [throw, throwThe, MonadExceptOf.throw, Except.isOk, Except.toBool]) fun h => ?_
          exact hlimit ((h.1 op List.mem_cons_self).destination start hdst).2

def FlowValid {F : Type} (p : List (LinearOp F)) : Prop := (deriveRegisterFlow p).isOk = true

instance {F : Type} (p : List (LinearOp F)) : Decidable (FlowValid p) :=
  inferInstanceAs (Decidable ((deriveRegisterFlow p).isOk = true))

theorem flowValid_iff {F : Type} (p : List (LinearOp F)) :
    FlowValid p ↔ (∀ op ∈ p, op.WellShaped) ∧ (accesses F).Flows (fun _ => False) p := by
  have h := deriveFrom_isOk_iff p 0 (fun _ => false) none
  rw [Flows.congr (fun _ => by simp : ∀ r : Nat, (fun _ : Nat => false) r = true ↔ False)] at h
  rw [← h, FlowValid, deriveRegisterFlow]
  cases deriveFrom 2 none p 0 (fun _ => false) none <;> rfl

/-! ## Interpretations -/

/-- How evaluating an operation can fail. -/
inductive FaultKind where
  | integerArithmetic | integerConversion | indexBounds | singularSystem | realDomain
deriving DecidableEq, Repr

/-- What evaluating an operation can do besides produce its results. -/
inductive FaultClass where
  | cannotFault
  | mayFault (kind : FaultKind)
  | hasEffect
deriving DecidableEq, Repr

def FaultClass.isPrunable : FaultClass → Bool
  | .cannotFault => true
  | _ => false

def LinearOp.faultClass {F : Type} : LinearOp F → FaultClass
  | .const .. | .loadTime .. | .loadY .. | .loadP .. | .loadIndexedP .. | .move .. | .unary .. | .binary ..
  | .compare .. | .select .. | .dotProduct .. | .matrixMultiply .. | .tensorLoad .. | .tensorBinary ..
  | .tensorCross .. | .tensorTranspose .. | .tensorConcatenate .. | .tensorFill .. | .tensorIdentity .. => .cannotFault
  | _ => .hasEffect

/-- What an operation leaves: the values written, the outputs stored, and the rest of the state. -/
structure Outcome (V W : Type) where
  written : List V
  stored : List V
  world : W

/-- What the operations compute. The world is what they read and change besides
registers: inputs, tables, random streams, the calls observed. -/
structure Semantics (F V W : Type) where
  run : LinearOp F → W → List V → Option (Outcome V W)
  run_length : ∀ op w vs r, run op w vs = some r → r.written.length = op.destination.length
  prunable : ∀ op : LinearOp F, op.faultClass.isPrunable = true → ∀ w vs, vs.length = op.sources.length →
    ∃ written, run op w vs = some ⟨written, [], w⟩

namespace Semantics

variable {F V W : Type} (S : Semantics F V W)

def instructions : Instructions (LinearOp F) V (List V × W) where
  toAccesses := accesses F
  run op s vs := (S.run op s.2 vs).map fun r => (r.written, (s.1 ++ r.stored, r.world))
  run_length op s vs r hr := by
    obtain ⟨outcome, houtcome, rfl⟩ := Option.map_eq_some_iff.1 hr
    exact S.run_length op s.2 vs outcome houtcome

def execute (p : List (LinearOp F)) (world : W) : Option (List V × W) :=
  (S.instructions.execute p (fun _ => none, ([], world))).map (·.2)

theorem pure_of_prunable {op : LinearOp F} (h : op.faultClass.isPrunable = true) : S.instructions.Pure op := by
  intro s vs hlen
  obtain ⟨written, hrun⟩ := S.prunable op h s.2 vs hlen
  exact ⟨written, by simp [instructions, hrun]⟩

theorem execute_kept {p : Flagged (LinearOp F)} (hflow : FlowValid (p.map (·.1)))
    (hpure : ∀ a ∈ p, a.2 = false → a.1.faultClass.isPrunable = true) (hdrop : (accesses F).Droppable p) (world : W) :
    S.execute (p.map (·.1)) world = S.execute (kept p) world :=
  S.instructions.execute_kept ((flowValid_iff _).1 hflow).2 (fun a ha hkeep => S.pure_of_prunable (hpure a ha hkeep))
    hdrop (fun _ hr => hr.elim) rfl fun _ _ => rfl

end Semantics

theorem FlowValid.kept {F : Type} {p : Flagged (LinearOp F)} (hflow : FlowValid (p.map (·.1)))
    (hdrop : (accesses F).Droppable p) : FlowValid (kept p) := by
  obtain ⟨hshape, hflows⟩ := (flowValid_iff _).1 hflow
  refine (flowValid_iff _).2 ⟨fun op hop => hshape op ?_, hflows.kept hdrop⟩
  obtain ⟨a, ha, rfl⟩ := List.mem_map.1 hop
  exact List.mem_map.2 ⟨a, (List.mem_filter.1 ha).1, rfl⟩

end Rumoca.Solve
