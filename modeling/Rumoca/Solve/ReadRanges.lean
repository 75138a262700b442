import Rumoca.Solve.RegisterReads
/-!
# The ranges of registers that an operation reads

`readRegisterRanges` records the source ranges of an operation without naming
each register of them. Spread out, they are the registers that its checks
require, in the same order.
-/

namespace Rumoca.Solve

open OpSources

variable {F : Type}

structure RegisterReadRange where
  start : Nat
  count : Nat
  stride : Nat
deriving DecidableEq, Repr

def RegisterReadRange.registers (read : RegisterReadRange) : List Reg :=
  (List.range read.count).map fun term => read.start + term * read.stride

def RegisterReadRange.one (register : Reg) : RegisterReadRange := ⟨register, 1, 1⟩

/-- The registers from `start` on. -/
def RegisterReadRange.consecutive (start : Reg) (count : Nat) : RegisterReadRange := ⟨start, count, 1⟩

open RegisterReadRange (one consecutive)

def indexRange : TensorIndex → List RegisterReadRange
  | .constant _ => []
  | .runtime register => [one register]

/-- The ranges of the axes of `tensor_update` from `valueCount` on, then that of its value. -/
def updateRanges (valueStart : Reg) : List (Nat × TensorUpdateSubscript) → (valueCount : Nat) → List RegisterReadRange
  | [], valueCount => [consecutive valueStart valueCount]
  | (extent, .whole) :: rest, valueCount => updateRanges valueStart rest (valueCount * extent)
  | (_, .index index) :: rest, valueCount => indexRange index ++ updateRanges valueStart rest valueCount
  | (_, .slice start dimensions) :: rest, valueCount =>
    consecutive start ((checkedProduct 1 dimensions).getD 0) ::
      updateRanges valueStart rest (valueCount * (checkedProduct 1 dimensions).getD 0)

def foldRanges (initialStart captureStart : Reg) (activation : Option Reg) (program : FunctionFoldProgram F) :
    List RegisterReadRange :=
  [consecutive initialStart program.carriedCount] ++
    (if program.captureCount = 0 then [] else [consecutive captureStart program.captureCount]) ++ activation.toList.map one

def recordedRanges : LinearOp F → List RegisterReadRange
  | .move _ src | .unary _ _ src | .loadIndexedP _ _ _ src | .loadIndexedSeed _ _ _ src | .storeOutput src => [one src]
  | .storeOutputRange start count stride => [⟨start, count, stride⟩]
  | .loadIndexedRegister _ base stride dimensions indices =>
    ⟨base, (checkedProduct 1 dimensions).getD 0, stride⟩ :: (dimensions.zip indices).flatMap (indexRange ·.2)
  | .functionConditional _ captureStart program =>
    if program.captureCount = 0 then [] else [consecutive captureStart program.captureCount]
  | .pureCall _ inputStarts site | .pureCallDirectional _ inputStarts site =>
    (inputStarts.zip site.inputs).map fun (start, count) => consecutive start count
  | .pureCallObservation _ inputStarts site =>
    (inputStarts.zip site.valueSite.inputs).map fun (start, count) => consecutive start count
  | .binary _ _ lhs rhs | .compare _ _ lhs rhs => [one lhs, one rhs]
  | .select _ cond ifTrue ifFalse => [one cond, one ifTrue, one ifFalse]
  | .linearSolveComponent _ matrixStart rhsStart n _ => [consecutive matrixStart (n * n), consecutive rhsStart n]
  | .dotProduct _ lhsStart rhsStart count lhsStride rhsStride =>
    [⟨lhsStart, count, lhsStride⟩, ⟨rhsStart, count, rhsStride⟩]
  | .matrixMultiply _ lhsStart rhsStart rows inner columns lanes =>
    [consecutive lhsStart ((checkedProduct rows [inner, lanes]).getD 0),
      consecutive rhsStart ((checkedProduct inner [columns, lanes]).getD 0)]
  | .tensorBinary _ _ lhsStart rhsStart count lhsStride rhsStride lanes =>
    [consecutive lhsStart ((stridedCount count lhsStride lanes).getD 0),
      consecutive rhsStart ((stridedCount count rhsStride lanes).getD 0)]
  | .tensorCross _ lhsStart rhsStart lanes => [consecutive lhsStart (3 * lanes), consecutive rhsStart (3 * lanes)]
  | .tensorTranspose _ srcStart rows columns elementWidth lanes =>
    [consecutive srcStart ((checkedProduct rows [columns, elementWidth, lanes]).getD 0)]
  | .tensorConcatenate _ sources _ _ lanes =>
    sources.map fun source => consecutive source.start ((checkedProduct lanes source.dimensions).getD 0)
  | .tensorUpdate _ baseStart valueStart dimensions subscripts lanes =>
    consecutive baseStart ((checkedProduct lanes dimensions).getD 0) ::
      updateRanges valueStart (dimensions.zip subscripts) lanes
  | .tensorFill _ valueStart _ lanes => [consecutive valueStart lanes]
  | .tableBounds _ tableId _ => [one tableId]
  | .tableLookup _ tableId column input | .tableLookupSlope _ tableId column input => [one tableId, one column, one input]
  | .tableNextEvent _ tableId time => [one tableId, one time]
  | .randomInitialState _ _ localSeed globalSeed _ _ => [one localSeed, one globalSeed]
  | .randomResult _ _ stateStart stateLen | .randomState _ _ stateStart stateLen _ => [consecutive stateStart stateLen]
  | .impureRandomInit _ seed => [one seed]
  | .impureRandom _ id _ => [one id]
  | .impureRandomInteger _ id imin imax _ => [one id, one imin, one imax]
  | .functionFold _ initialStart captureStart program => foldRanges initialStart captureStart none program
  | .guardedFunctionFold _ initialStart captureStart activation program =>
    foldRanges initialStart captureStart (some activation) program
  | _ => []

/-- `op_read_register_ranges`: none where the checks reject the operation. -/
def readRegisterRanges (op : LinearOp F) : Option (List RegisterReadRange) :=
  (collected (opSources 2 none 0 op)).map fun _ => recordedRanges op

/-! ## The ranges and the checks -/

def Records (checks : List SourceCheck) (ranges : List RegisterReadRange) : Prop :=
  ∀ registers, collected checks = some registers → registers = ranges.flatMap RegisterReadRange.registers

theorem collected_append {a b : List SourceCheck} {registers : List Reg} (h : collected (a ++ b) = some registers) :
    ∃ x y, collected a = some x ∧ collected b = some y ∧ registers = x ++ y := by
  induction a generalizing registers with
  | nil => exact ⟨[], registers, rfl, h, rfl⟩
  | cons check rest ih =>
    cases check with
    | reject error => cases h
    | require register =>
      obtain ⟨others, hothers, rfl⟩ := Option.map_eq_some_iff.1 h
      obtain ⟨x, y, hx, hy, rfl⟩ := ih hothers
      exact ⟨register :: x, y, by rw [collected, hx]; rfl, hy, rfl⟩

namespace Records

variable {a b : List SourceCheck} {r s : List RegisterReadRange}

theorem nil : Records [] [] := by
  intro registers h
  cases h
  rfl

theorem reject {error : ScalarProgramRegisterError} : Records (.reject error :: a) r := fun _ h => by cases h

theorem append (ha : Records a r) (hb : Records b s) : Records (a ++ b) (r ++ s) := by
  intro registers h
  obtain ⟨x, y, hx, hy, rfl⟩ := collected_append h
  rw [ha x hx, hb y hy, List.flatMap_append]

theorem flatMap {α : Type} {f : α → List SourceCheck} {g : α → List RegisterReadRange} {xs : List α}
    (h : ∀ x ∈ xs, Records (f x) (g x)) : Records (xs.flatMap f) (xs.flatMap g) := by
  induction xs with
  | nil => exact nil
  | cons x xs ih => exact append (h x List.mem_cons_self) (ih fun y hy => h y (List.mem_cons_of_mem x hy))

theorem require_map {registers : List Reg} {read : RegisterReadRange} (h : registers = read.registers) :
    Records (registers.map .require) [read] := by
  have hcollected : ∀ registers, collected (registers.map .require) = some registers := by
    intro registers
    induction registers with
    | nil => rfl
    | cons register rest ih => rw [List.map_cons, collected, ih]; rfl
  intro found hfound
  cases (hcollected registers).symm.trans hfound
  simp [h]

theorem require (register : Reg) : Records [.require register] [one register] :=
  require_map (show [register] = _ by simp [RegisterReadRange.registers, one])

end Records

section
variable (cx : OpSources)

theorem records_requireRange (start : Reg) (len : Nat) : Records (cx.requireRange start len) [consecutive start len] := by
  unfold requireRange
  split_ifs
  · exact Records.reject
  · rw [show (List.range len).map (fun offset => SourceCheck.require (start + offset)) =
      ((List.range len).map (start + ·)).map .require by simp]
    exact Records.require_map (by simp [RegisterReadRange.registers, consecutive])
  · exact Records.reject

/-- The registers a stride apart, as `requireStridedRegisters` and `outputRange` require them. -/
theorem records_strided (start : Reg) (count stride : Nat) :
    Records ((List.range count).map fun term => .require (start + term * stride)) [⟨start, count, stride⟩] := by
  rw [show (List.range count).map (fun term => SourceCheck.require (start + term * stride)) =
    ((List.range count).map fun term => start + term * stride).map .require by simp]
  exact Records.require_map rfl

theorem records_requireStridedRegisters (start : Reg) (count stride : Nat) :
    Records (cx.requireStridedRegisters start count stride) [⟨start, count, stride⟩] := by
  unfold requireStridedRegisters
  split_ifs
  · exact Records.reject
  · exact records_strided start count stride
  · exact Records.reject

theorem records_outputRange (start : Reg) (count stride : Nat) :
    Records (cx.outputRange start count stride) [⟨start, count, stride⟩] := by
  unfold outputRange
  split_ifs
  · exact Records.reject
  · exact Records.reject
  · exact records_strided start count stride
  · exact Records.reject

theorem records_projection (p len : Nat) : Records (cx.projection p len) [] := by
  unfold projection
  split_ifs
  · exact Records.nil
  · exact Records.reject

theorem records_indexedAxis (axis : Nat × TensorIndex) : Records (cx.indexedAxis axis) (indexRange axis.2) := by
  unfold indexedAxis indexRange
  cases axis.2 with
  | constant coordinate =>
    simp only
    split_ifs
    · exact Records.reject
    · exact Records.nil
  | runtime register => exact Records.require register

theorem records_indexedRegister (base : Reg) (stride : Nat) (dimensions : List Nat) (indices : List TensorIndex) :
    Records (cx.indexedRegister base stride dimensions indices)
      (⟨base, (checkedProduct 1 dimensions).getD 0, stride⟩ :: (dimensions.zip indices).flatMap (indexRange ·.2)) := by
  unfold indexedRegister
  by_cases hshape : dimensions = [] ∨ dimensions.length ≠ indices.length
  · rw [if_pos hshape]
    exact Records.reject
  · rw [if_neg hshape]
    by_cases hzero : 0 ∈ dimensions
    · rw [if_pos hzero]
      exact Records.reject
    · rw [if_neg hzero]
      cases checkedProduct 1 dimensions with
      | none => exact Records.reject
      | some count =>
        simp only
        split_ifs
        · exact Records.reject
        · exact Records.reject
        · exact Records.reject
        · exact Records.append (records_strided base count stride)
            (Records.flatMap fun axis _ => records_indexedAxis cx axis)

theorem records_typedCallSources (inputStarts : List Reg) (inputs : List Nat) (count : Option Nat) (reason : String) :
    Records (cx.typedCallSources inputStarts inputs count reason)
      ((inputStarts.zip inputs).map fun (start, count) => consecutive start count) := by
  unfold typedCallSources
  split_ifs
  · exact Records.reject
  · rw [List.map_eq_flatMap]
    exact Records.flatMap fun x _ => records_requireRange cx x.1 x.2

theorem records_pair (lhsStart rhsStart : Reg) (lhsCount rhsCount : Nat) :
    Records (cx.requireRange lhsStart lhsCount ++ cx.requireRange rhsStart rhsCount)
      [consecutive lhsStart lhsCount, consecutive rhsStart rhsCount] :=
  Records.append (records_requireRange cx lhsStart lhsCount) (records_requireRange cx rhsStart rhsCount)

theorem records_matrixMultiply (lhsStart rhsStart : Reg) (rows inner columns lanes : Nat) :
    Records (cx.matrixMultiply lhsStart rhsStart rows inner columns lanes)
      [consecutive lhsStart ((checkedProduct rows [inner, lanes]).getD 0),
        consecutive rhsStart ((checkedProduct inner [columns, lanes]).getD 0)] := by
  unfold matrixMultiply
  split_ifs
  · exact Records.reject
  · cases checkedProduct rows [inner, lanes] with
    | none => exact Records.reject
    | some lhsCount =>
      cases checkedProduct inner [columns, lanes] with
      | none => exact Records.reject
      | some rhsCount => exact records_pair cx lhsStart rhsStart lhsCount rhsCount

theorem records_tensorBinary (op : BinaryOp) (lhsStart lhsStride rhsStart rhsStride count lanes : Nat) :
    Records (cx.tensorBinary op lhsStart lhsStride rhsStart rhsStride count lanes)
      [consecutive lhsStart ((stridedCount count lhsStride lanes).getD 0),
        consecutive rhsStart ((stridedCount count rhsStride lanes).getD 0)] := by
  unfold tensorBinary
  split_ifs
  · exact Records.reject
  · cases stridedCount count lhsStride lanes with
    | none => exact Records.reject
    | some lhsCount =>
      cases stridedCount count rhsStride lanes with
      | none => exact Records.reject
      | some rhsCount => exact records_pair cx lhsStart rhsStart lhsCount rhsCount

theorem checkedUsize_value {n m : Nat} (h : checkedUsize n = some m) : m = n := (checkedUsize_eq_some.1 h).1.symm

theorem records_tensorCross (lhsStart rhsStart : Reg) (lanes : Nat) :
    Records (cx.tensorCross lhsStart rhsStart lanes)
      [consecutive lhsStart (3 * lanes), consecutive rhsStart (3 * lanes)] := by
  unfold tensorCross
  by_cases hlanes : cx.lanesInRange lanes
  · rw [if_neg (not_not_intro hlanes)]
    cases hcount : checkedUsize (3 * lanes) with
    | none => exact Records.reject
    | some count =>
      rw [checkedUsize_value hcount]
      exact records_pair cx lhsStart rhsStart _ _
  · rw [if_pos hlanes]
    exact Records.reject

theorem records_tensorTranspose (srcStart : Reg) (rows columns elementWidth lanes : Nat) :
    Records (cx.tensorTranspose srcStart rows columns elementWidth lanes)
      [consecutive srcStart ((checkedProduct rows [columns, elementWidth, lanes]).getD 0)] := by
  unfold tensorTranspose
  cases checkedProduct rows [columns, elementWidth, lanes] with
  | none => exact Records.reject
  | some count =>
    simp only
    split_ifs
    · exact Records.reject
    · exact records_requireRange cx srcStart count

theorem records_concatenateSources (dimensions : List Nat) (axis lanes : Nat) (sources : List TensorConcatenateSource)
    (axisExtent : Nat) : Records (cx.concatenateSources dimensions axis lanes sources axisExtent)
      (sources.map fun source => consecutive source.start ((checkedProduct lanes source.dimensions).getD 0)) := by
  induction sources generalizing axisExtent with
  | nil =>
    unfold concatenateSources
    split_ifs
    · exact Records.reject
    · exact Records.nil
  | cons source rest ih =>
    unfold concatenateSources
    split_ifs
    · exact Records.reject
    · cases checkedU32 (axisExtent + (source.dimensions[axis]?).getD 0) with
      | none => exact Records.reject
      | some extent =>
        rw [List.map_cons]
        cases checkedProduct lanes source.dimensions with
        | none => exact Records.reject
        | some count => exact Records.append (records_requireRange cx source.start count) (ih extent)

theorem records_tensorConcatenate (sources : List TensorConcatenateSource) (dimensions : List Nat) (axis lanes : Nat) :
    Records (cx.tensorConcatenate sources dimensions axis lanes)
      (sources.map fun source => consecutive source.start ((checkedProduct lanes source.dimensions).getD 0)) := by
  unfold tensorConcatenate
  split_ifs
  · exact Records.reject
  · exact records_concatenateSources cx dimensions axis lanes sources 0

theorem records_updateAxes (valueStart : Reg) (axes : List (Nat × TensorUpdateSubscript)) (valueCount : Nat) :
    Records (cx.updateAxes valueStart axes valueCount) (updateRanges valueStart axes valueCount) := by
  induction axes generalizing valueCount with
  | nil => exact records_requireRange cx valueStart valueCount
  | cons axis rest ih =>
    obtain ⟨extent, subscript⟩ := axis
    cases subscript with
    | whole =>
      unfold updateAxes updateRanges
      cases hcount : checkedUsize (valueCount * extent) with
      | none => exact Records.reject
      | some count =>
        rw [checkedUsize_value hcount]
        exact ih _
    | index index =>
      cases index with
      | constant coordinate =>
        unfold updateAxes updateRanges
        split_ifs
        · exact Records.reject
        · exact ih valueCount
      | runtime register =>
        unfold updateAxes updateRanges
        exact Records.append (Records.require register) (ih valueCount)
    | slice start dimensions =>
      unfold updateAxes updateRanges
      split_ifs
      · exact Records.reject
      · cases checkedProduct 1 dimensions with
        | none => exact Records.reject
        | some count =>
          refine Records.append (records_requireRange cx start count) ?_
          cases htotal : checkedUsize (valueCount * count) with
          | none => exact Records.reject
          | some total =>
            rw [checkedUsize_value htotal]
            exact ih _

theorem records_tensorUpdate (baseStart valueStart : Reg) (dimensions : List Nat)
    (subscripts : List TensorUpdateSubscript) (lanes : Nat) :
    Records (cx.tensorUpdate baseStart valueStart dimensions subscripts lanes)
      (consecutive baseStart ((checkedProduct lanes dimensions).getD 0) ::
        updateRanges valueStart (dimensions.zip subscripts) lanes) := by
  unfold tensorUpdate
  split_ifs
  · exact Records.reject
  · cases checkedProduct lanes dimensions with
    | none => exact Records.reject
    | some baseCount =>
      exact Records.append (records_requireRange cx baseStart baseCount) (records_updateAxes cx valueStart _ lanes)

theorem records_functionFoldSources (initialStart captureStart : Reg) (activation : Option Reg)
    (program : FunctionFoldProgram F) : Records (cx.functionFoldSources initialStart captureStart activation program)
      (foldRanges initialStart captureStart activation program) := by
  unfold functionFoldSources foldRanges
  have hactivation : Records (activation.toList.map .require) (activation.toList.map one) := by
    cases activation with
    | none => exact Records.nil
    | some register => exact Records.require register
  have hcapture : Records (if program.captureCount = 0 then [] else cx.requireRange captureStart program.captureCount)
      (if program.captureCount = 0 then [] else [consecutive captureStart program.captureCount]) := by
    split_ifs
    · exact Records.nil
    · exact records_requireRange cx captureStart _
  by_cases hcarried : program.carriedCount = 0
  · rw [if_pos hcarried]
    exact Records.reject
  · rw [if_neg hcarried]
    exact Records.append (Records.append (records_requireRange cx initialStart _) hcapture) hactivation

theorem records_two (first second : Reg) : Records [.require first, .require second] [one first, one second] :=
  Records.append (Records.require first) (Records.require second)

theorem records_three (first second third : Reg) :
    Records [.require first, .require second, .require third] [one first, one second, one third] :=
  Records.append (Records.require first) (records_two second third)

end

theorem records_leafSources (cx : OpSources) (hcaptures : cx.conditionalCaptureCount = none) {op : LinearOp F}
    (hop : ∀ dst capture program, op ≠ .functionConditional dst capture program) :
    Records (cx.leafSources op) (recordedRanges op) := by
  cases op with
  | functionConditional dst capture program => exact absurd rfl (hop dst capture program)
  | const | loadTime | loadY | loadP | loadSeed => exact Records.nil
  | loadFunctionConditionalCapture _ index =>
    unfold leafSources conditionalCapture
    rw [hcaptures]
    exact Records.reject
  | loadFunctionConditionalCaptureRange _ start count =>
    unfold leafSources conditionalCaptureRange
    rw [hcaptures]
    exact Records.reject
  | move _ src | unary _ _ src | loadIndexedP _ _ _ src | loadIndexedSeed _ _ _ src | storeOutput src
  | tableBounds _ src | impureRandomInit _ src | impureRandom _ src => exact Records.require _
  | binary _ _ lhs rhs | compare _ _ lhs rhs | tableNextEvent _ lhs rhs => exact records_two lhs rhs
  | select _ first second third | tableLookup _ first second third | tableLookupSlope _ first second third
  | impureRandomInteger _ first second third => exact records_three first second third
  | storeOutputRange start count stride => exact records_outputRange cx start count stride
  | loadIndexedRegister _ base stride dimensions indices => exact records_indexedRegister cx base stride dimensions indices
  | pureCall _ starts site => exact records_typedCallSources cx starts site.inputs _ _
  | pureCallObservation _ starts site => exact records_typedCallSources cx starts site.valueSite.inputs _ _
  | pureCallDirectional _ starts site => exact records_typedCallSources cx starts site.inputs _ _
  | linearSolveComponent _ matrixStart rhsStart n component =>
    unfold leafSources
    refine Records.append (records_projection cx component n) ?_
    cases hlen : checkedUsize (n * n) with
    | none => exact Records.reject
    | some matrixLen =>
      rw [checkedUsize_value hlen]
      exact records_pair cx matrixStart rhsStart _ n
  | dotProduct _ lhsStart rhsStart count lhsStride rhsStride =>
    exact Records.append (records_requireStridedRegisters cx lhsStart count lhsStride)
      (records_requireStridedRegisters cx rhsStart count rhsStride)
  | matrixMultiply _ lhs rhs rows inner columns lanes => exact records_matrixMultiply cx lhs rhs rows inner columns lanes
  | tensorBinary _ op lhs rhs count lhsStride rhsStride lanes =>
    exact records_tensorBinary cx op lhs lhsStride rhs rhsStride count lanes
  | tensorCross _ lhs rhs lanes => exact records_tensorCross cx lhs rhs lanes
  | tensorTranspose _ src rows columns elementWidth lanes =>
    exact records_tensorTranspose cx src rows columns elementWidth lanes
  | tensorConcatenate _ sources dimensions axis lanes =>
    exact records_tensorConcatenate cx sources dimensions axis lanes
  | tensorUpdate _ base value dimensions subscripts lanes =>
    exact records_tensorUpdate cx base value dimensions subscripts lanes
  | tensorFill _ value count lanes =>
    simp only [leafSources, recordedRanges]
    split_ifs
    · exact Records.reject
    · exact records_requireRange cx value lanes
  | tensorIdentity _ size lanes =>
    simp only [leafSources, recordedRanges]
    split_ifs
    · exact Records.reject
    · exact Records.nil
  | tensorLoad _ _ _ count seedStart lanes =>
    simp only [leafSources, recordedRanges]
    split_ifs
    · exact Records.reject
    · exact Records.nil
  | randomInitialState _ _ localSeed globalSeed len index =>
    exact Records.append (records_projection cx index len) (records_two localSeed globalSeed)
  | randomResult _ _ start len => exact records_requireRange cx start len
  | randomState _ _ start len index =>
    exact Records.append (records_projection cx index len) (records_requireRange cx start len)
  | functionFold _ initial capture program => exact records_functionFoldSources cx initial capture none program
  | guardedFunctionFold _ initial capture activation program =>
    exact records_functionFoldSources cx initial capture (some activation) program
  | loadFoldCarried | loadFoldIndex | loadFoldCapture | loadIndexedFoldCarried | loadIndexedFoldCapture
  | storeOutputFoldTensorUpdate | storeOutputFunctionFold => exact Records.reject

theorem records_opSources (op : LinearOp F) : Records (opSources 2 none 0 op) (recordedRanges op) := by
  cases op with
  | functionConditional dst captureStart program =>
    unfold opSources
    cases validateConditional 2 program with
    | none =>
      simp only [recordedRanges]
      split_ifs
      · exact Records.nil
      · exact records_requireRange _ captureStart _
    | some error => cases error <;> exact Records.reject
  | _ =>
    unfold opSources
    exact records_leafSources _ rfl (by simp)

theorem mem_sources_iff {op : LinearOp F} {ranges : List RegisterReadRange} (h : readRegisterRanges op = some ranges)
    (r : Reg) : r ∈ op.sources ↔ ∃ read ∈ ranges, ∃ term < read.count, r = read.start + term * read.stride := by
  obtain ⟨registers, hregisters, rfl⟩ := Option.map_eq_some_iff.1 h
  rw [LinearOp.sources, hregisters, Option.getD_some, records_opSources op registers hregisters, List.mem_flatMap]
  refine exists_congr fun read => and_congr_right fun _ => ?_
  simp [RegisterReadRange.registers, eq_comm]

end Rumoca.Solve
