import Rumoca.Solve.RegisterFlow
import Mathlib.Algebra.BigOperators.Group.Finset.Basic
import Mathlib.Algebra.Field.Basic
/-!
# Exact values of a scalar program

Execution of a program over a field: negation, sums, products and quotients
are the field's, loads read the inputs, tensor operations place or combine the
elements they read, and every other function of values is uninterpreted, as
are the calls. An operation reads all its operands before it writes. Whatever
the analysis does not admit may write any registers and store any outputs.
-/

namespace Rumoca.Solve.Affinity

/-- The values an execution reads. -/
structure Inputs (K : Type) where
  y : Nat → K
  p : Nat → K
  time : K

abbrev Values (K : Type) := Nat → K

/-- The functions of values that execution leaves uninterpreted. -/
structure Arithmetic (F K : Type) where
  /-- The value of a finite literal. -/
  literal : F → Option K
  unary : UnaryOp → K → K
  binary : BinaryOp → K → K → K
  compare : CompareOp → K → K → K
  truth : K → Bool
  /-- An element of an output of a call, from the values of its inputs. -/
  pureCall : PureCallSite → List (List K) → (output element : Nat) → K
  pureCallDirectional : PureCallSite → List (List K) → (output element : Nat) → K
  /-- The registers after any other operation, and the outputs it stores. -/
  other : LinearOp F → Inputs K → Values K → Values K × List K

section
variable {F K : Type} [Field K] [DecidableEq K] (arithmetic : Arithmetic F K)

def evalUnary (op : UnaryOp) (value : K) : K :=
  match op with
  | .neg => -value
  | op => arithmetic.unary op value

def evalBinary (op : BinaryOp) (lhs rhs : K) : K :=
  match op with
  | .add => lhs + rhs
  | .sub => lhs - rhs
  | .mul => lhs * rhs
  | .div => lhs / rhs
  | op => arithmetic.binary op lhs rhs

/-! ## Tensor elements -/

section
variable (values : Values K)

def matrixValue (lhsStart rhsStart : Reg) (inner columns offset : Nat) : K :=
  ∑ term ∈ Finset.range inner,
    values (lhsStart.offset (offset / columns * inner + term)) *
      values (rhsStart.offset (term * columns + offset % columns))

def crossFactors : Nat → Nat × Nat
  | 0 => (1, 2)
  | 1 => (2, 0)
  | _ => (0, 1)

def crossValue (lhsStart rhsStart : Reg) (component : Nat) : K :=
  let (first, second) := crossFactors component
  values (lhsStart.offset first) * values (rhsStart.offset second) -
    values (lhsStart.offset second) * values (rhsStart.offset first)

def transposeSource (srcStart : Reg) (rows columns elementWidth offset : Nat) : Reg :=
  let element := offset / elementWidth
  srcStart.offset ((element % columns * rows + element / columns) * elementWidth + offset % elementWidth)

end

/-- `visit_tensor_concatenate`: the register of each copied element and its place in the result. -/
def concatenateVisits (dimensions : List Nat) (axis : Nat) :
    List TensorConcatenateSource → (axisOffset : Nat) → List (Reg × Nat)
  | [], _ => []
  | source :: rest, axisOffset =>
    let inner := (dimensions.drop (axis + 1)).prod
    let resultAxis := dimensions.getD axis 0
    let sourceAxis := source.dimensions.getD axis 0
    let sourceBlock := sourceAxis * inner
    (List.range source.dimensions.prod).map (fun element =>
      (source.start.offset element,
        element / sourceBlock * resultAxis * inner + axisOffset * inner + element % sourceBlock)) ++
      concatenateVisits dimensions axis rest (axisOffset + sourceAxis)

def concatenateSource (dimensions : List Nat) (axis : Nat) (sources : List TensorConcatenateSource) (offset : Nat) :
    Option Reg :=
  ((concatenateVisits dimensions axis sources 0).reverse.find? (·.2 = offset)).map (·.1)

section
variable (values : Values K)

def tensorIndexCoordinate (index : TensorIndex) (extent : Nat) : Option Nat :=
  match index with
  | .constant coordinate => some coordinate
  | .runtime register => (List.range extent).find? fun coordinate => values register = ((coordinate + 1 : Nat) : K)

def tensorSliceCoordinateOffset (start : Reg) (count coordinate : Nat) : Option Nat :=
  (List.range count).find? fun offset => values (start.offset offset) = ((coordinate + 1 : Nat) : K)

/-- The element count of a shape, `saturating_mul` over its extents. -/
def saturatingExtent (dimensions : List Nat) : Nat := dimensions.foldl saturatingMul 1

/-- The axes of `tensor_update_register_value_offset` from `valueOffset` on. -/
def updateValueOffset (element : Nat) :
    List (Nat × TensorUpdateSubscript) → (axisStride valueOffset : Nat) → Option Nat
  | [], _, valueOffset => some valueOffset
  | (extent, subscript) :: rest, axisStride, valueOffset =>
    let axisStride := axisStride / extent
    let coordinate := element / axisStride % extent
    match subscript with
    | .whole => updateValueOffset element rest axisStride (valueOffset * extent + coordinate)
    | .index index =>
      match tensorIndexCoordinate values index extent with
      | none => none
      | some selected => if selected ≠ coordinate then none else updateValueOffset element rest axisStride valueOffset
    | .slice start dimensions =>
      let sliceCount := saturatingExtent dimensions
      match tensorSliceCoordinateOffset values start sliceCount coordinate with
      | none => none
      | some selected => updateValueOffset element rest axisStride (valueOffset * sliceCount + selected)

def updateSource (baseStart valueStart : Reg) (dimensions : List Nat) (subscripts : List TensorUpdateSubscript)
    (element : Nat) : Reg :=
  match updateValueOffset values element (dimensions.zip subscripts) (saturatingExtent dimensions) 0 with
  | some offset => valueStart.offset offset
  | none => baseStart.offset element

end

/-! ## Steps -/

/-- The elements an operation writes from its first register on, where execution interprets it. -/
def elementValue (inputs : Inputs K) (values : Values K) : LinearOp F → Option (Nat → K)
  | .const _ value => (arithmetic.literal value).map fun value _ => value
  | .loadTime _ => some fun _ => inputs.time
  | .loadY _ index => some fun _ => inputs.y index
  | .loadP _ index => some fun _ => inputs.p index
  | .move _ src => some fun _ => values src
  | .unary _ op arg => some fun _ => evalUnary arithmetic op (values arg)
  | .binary _ op lhs rhs => some fun _ => evalBinary arithmetic op (values lhs) (values rhs)
  | .compare _ op lhs rhs => some fun _ => arithmetic.compare op (values lhs) (values rhs)
  | .select _ cond ifTrue ifFalse =>
    some fun _ => if arithmetic.truth (values cond) then values ifTrue else values ifFalse
  | .tensorIdentity _ size 1 => some fun offset => if offset / size = offset % size then 1 else 0
  | .tensorLoad _ .y inputStart _ _ 1 => some fun offset => inputs.y (inputStart + offset)
  | .tensorLoad _ .p inputStart _ _ 1 => some fun offset => inputs.p (inputStart + offset)
  | .tensorFill _ valueStart _ 1 => some fun _ => values valueStart
  | .tensorBinary _ op lhsStart rhsStart _ lhsStride rhsStride 1 => some fun offset =>
    evalBinary arithmetic op (values (lhsStart.offset (offset * lhsStride)))
      (values (rhsStart.offset (offset * rhsStride)))
  | .tensorCross _ lhsStart rhsStart 1 => some (crossValue values lhsStart rhsStart)
  | .matrixMultiply _ lhsStart rhsStart _ inner columns 1 => some (matrixValue values lhsStart rhsStart inner columns)
  | .tensorTranspose _ srcStart rows columns elementWidth 1 => some fun offset =>
    values (transposeSource srcStart rows columns elementWidth offset)
  | .tensorConcatenate dstStart sources dimensions axis 1 => some fun offset =>
    values ((concatenateSource dimensions axis sources offset).getD (dstStart.offset offset))
  | .tensorUpdate _ baseStart valueStart dimensions subscripts 1 => some fun offset =>
    values (updateSource values baseStart valueStart dimensions subscripts offset)
  | _ => none

/-- `count` registers from `start` on. -/
def writeRange (values : Values K) (start : Nat) (count : Nat) (element : Nat → K) : Values K := fun register =>
  if start ≤ register ∧ register < start + count then element (register - start) else values register

def callValues (values : Values K) (starts : List Reg) (types : List Nat) : List (List K) :=
  (starts.zip types).map fun (start, count) => (List.range count).map fun offset => values (start.offset offset)

/-- The outputs of a call one after the other, the first of them `output`. -/
def writeOutputs (element : (output element : Nat) → K) (values : Values K) (start output : Nat) :
    List (PureCallOutputKind × Nat) → Values K
  | [] => values
  | (_, count) :: rest =>
    writeOutputs element (writeRange values start count (element output)) (start + count) (output + 1) rest

/-- The registers of a program under execution, and the outputs it has stored. -/
structure Execution (K : Type) where
  values : Values K
  outputs : List K

def step (inputs : Inputs K) (s : Execution K) (op : LinearOp F) : Execution K :=
  match op with
  | .storeOutput src => { s with outputs := s.outputs ++ [s.values src] }
  | .storeOutputRange start count stride =>
    { s with outputs := s.outputs ++ (List.range count).map fun ordinal => s.values (start.offset (ordinal * stride)) }
  | .pureCall dstStart inputStarts site =>
    let element := arithmetic.pureCall site (callValues s.values inputStarts site.inputs)
    { s with values := writeOutputs element s.values dstStart 0 site.outputs }
  | .pureCallDirectional dstStart inputStarts site =>
    let element := arithmetic.pureCallDirectional site (callValues s.values inputStarts site.inputs)
    { s with values := writeOutputs element s.values dstStart 0 site.outputs }
  | op =>
    match elementValue arithmetic inputs s.values op, op.dstRegister with
    | some element, some start => { s with values := writeRange s.values start op.dstRegisterCount element }
    | _, _ =>
      let (values, stored) := arithmetic.other op inputs s.values
      ⟨values, s.outputs ++ stored⟩

def run (inputs : Inputs K) (program : List (LinearOp F)) (s : Execution K) : Execution K :=
  program.foldl (step arithmetic inputs) s

end

/-! ## Concatenations that cover their result -/

def CoversResult {F : Type} : LinearOp F → Prop
  | .tensorConcatenate _ sources dimensions axis 1 =>
    ∀ offset < dimensions.prod, (concatenateSource dimensions axis sources offset).isSome
  | _ => True

/-- The sources from `axisOffset` on agree with the result off the axis and fill the rest of it. -/
def ConcatenatesFrom (dimensions : List Nat) (axis : Nat) : List TensorConcatenateSource → (axisOffset : Nat) → Prop
  | [], axisOffset => dimensions[axis]? = some axisOffset
  | source :: rest, axisOffset =>
    (source.dimensions.length = dimensions.length ∧ ∀ i, i ≠ axis → source.dimensions[i]? = dimensions[i]?) ∧
      ConcatenatesFrom dimensions axis rest (axisOffset + source.dimensions.getD axis 0)

theorem concatenatesFrom_of_checks (cx : OpSources) {dimensions : List Nat} {axis lanes : Nat}
    {sources : List TensorConcatenateSource} {axisOffset : Nat}
    (h : ∀ error, SourceCheck.reject error ∉ cx.concatenateSources dimensions axis lanes sources axisOffset) :
    ConcatenatesFrom dimensions axis sources axisOffset := by
  induction sources generalizing axisOffset with
  | nil =>
    unfold OpSources.concatenateSources at h
    split_ifs at h with hne
    · exact absurd List.mem_cons_self (h _)
    · exact (not_not.1 hne).symm
  | cons source rest ih =>
    unfold OpSources.concatenateSources at h
    split_ifs at h with hshape
    · exact absurd List.mem_cons_self (h _)
    · rw [not_or, not_not] at hshape
      obtain ⟨hlength, hdims⟩ := hshape
      have hsame : ∀ i, i ≠ axis → source.dimensions[i]? = dimensions[i]? := by
        intro i hi
        by_cases hlt : i < dimensions.length
        · have hlt' : i < source.dimensions.length := hlength ▸ hlt
          have hi' := hdims
          simp only [List.any_eq_true, Bool.and_eq_true, bne_iff_ne, not_exists, not_and] at hi'
          have hmem : ((source.dimensions[i], dimensions[i]), i) ∈ (source.dimensions.zip dimensions).zipIdx := by
            rw [List.mem_zipIdx_iff_getElem?]
            simp [hlt, hlt']
          have heq := hi' _ hmem
          grind
        · rw [List.getElem?_eq_none (by omega), List.getElem?_eq_none (by omega)]
      refine ⟨⟨hlength, hsame⟩, ?_⟩
      rw [List.getD_eq_getElem?_getD]
      cases hextent : checkedU32 (axisOffset + (source.dimensions[axis]?).getD 0) with
      | none =>
        simp only [hextent] at h
        exact absurd List.mem_cons_self (h _)
      | some extent =>
        obtain ⟨rfl, -⟩ := checkedU32_eq_some.1 hextent
        simp only [hextent] at h
        cases hcount : OpSources.checkedProduct lanes source.dimensions with
        | none =>
          simp only [hcount] at h
          exact absurd List.mem_cons_self (h _)
        | some count =>
          simp only [hcount] at h
          exact ih fun error herror => h error (List.mem_append_right _ herror)

theorem prod_split {dimensions : List Nat} {axis : Nat} (h : axis < dimensions.length) :
    dimensions.prod = (dimensions.take axis).prod * (dimensions.getD axis 0 * (dimensions.drop (axis + 1)).prod) := by
  rw [List.getD_eq_getElem?_getD, List.getElem?_eq_getElem h, Option.getD_some]
  calc dimensions.prod = (dimensions.take axis ++ dimensions.drop axis).prod := by rw [List.take_append_drop]
    _ = (dimensions.take axis).prod * (dimensions.drop axis).prod := List.prod_append
    _ = _ := by rw [List.drop_eq_getElem_cons h, List.prod_cons]

theorem take_drop_eq {dimensions dimensions' : List Nat} {axis : Nat}
    (h : ∀ i, i ≠ axis → dimensions'[i]? = dimensions[i]?) :
    dimensions'.take axis = dimensions.take axis ∧ dimensions'.drop (axis + 1) = dimensions.drop (axis + 1) := by
  refine ⟨List.ext_getElem? fun i => ?_, List.ext_getElem? fun i => ?_⟩
  · rw [List.getElem?_take, List.getElem?_take]
    split_ifs with hi
    · exact h i (Nat.ne_of_lt hi)
    · rfl
  · rw [List.getElem?_drop, List.getElem?_drop]
    exact h _ (by omega)

/-- A place of the result, by its outer index, its coordinate on the axis and its inner index, is visited. -/
theorem exists_visit {dimensions : List Nat} {axis : Nat} (haxis : axis < dimensions.length)
    {sources : List TensorConcatenateSource} {axisOffset : Nat}
    (h : ConcatenatesFrom dimensions axis sources axisOffset) {outer along within : Nat}
    (houter : outer < (dimensions.take axis).prod) (hfrom : axisOffset ≤ along)
    (halong : along < dimensions.getD axis 0) (hwithin : within < (dimensions.drop (axis + 1)).prod) :
    ∃ visit ∈ concatenateVisits dimensions axis sources axisOffset,
      visit.2 = outer * dimensions.getD axis 0 * (dimensions.drop (axis + 1)).prod +
        along * (dimensions.drop (axis + 1)).prod + within := by
  induction sources generalizing axisOffset with
  | nil =>
    have hextent : dimensions.getD axis 0 = axisOffset := by
      rw [List.getD_eq_getElem?_getD, show dimensions[axis]? = some axisOffset from h, Option.getD_some]
    omega
  | cons source rest ih =>
    obtain ⟨⟨hlength, hsame⟩, hrest⟩ := h
    by_cases hlt : along < axisOffset + source.dimensions.getD axis 0
    · obtain ⟨htake, hdrop⟩ := take_drop_eq hsame
      set inner := (dimensions.drop (axis + 1)).prod with hinner
      set extent := source.dimensions.getD axis 0 with hextent
      have hplace : (along - axisOffset) * inner + within < extent * inner := by
        calc (along - axisOffset) * inner + within < (along - axisOffset) * inner + inner := by omega
          _ = (along - axisOffset + 1) * inner := (Nat.succ_mul _ _).symm
          _ ≤ extent * inner := Nat.mul_le_mul_right inner (by omega)
      have hblock : 0 < extent * inner := Nat.lt_of_le_of_lt (Nat.zero_le _) hplace
      have helement : outer * (extent * inner) + ((along - axisOffset) * inner + within) < source.dimensions.prod := by
        rw [prod_split (hlength ▸ haxis), htake, hdrop]
        calc _ < outer * (extent * inner) + extent * inner := Nat.add_lt_add_left hplace _
          _ = (outer + 1) * (extent * inner) := (Nat.succ_mul _ _).symm
          _ ≤ _ := Nat.mul_le_mul_right _ houter
      refine ⟨_, List.mem_append_left _ (List.mem_map.2 ⟨_, List.mem_range.2 helement, rfl⟩), ?_⟩
      have hdiv : (outer * (extent * inner) + ((along - axisOffset) * inner + within)) / (extent * inner) = outer := by
        rw [Nat.add_comm, Nat.add_mul_div_right _ _ hblock, Nat.div_eq_of_lt hplace, Nat.zero_add]
      have hmod : (outer * (extent * inner) + ((along - axisOffset) * inner + within)) % (extent * inner) =
          (along - axisOffset) * inner + within := by
        rw [Nat.add_comm, Nat.add_mul_mod_self_right, Nat.mod_eq_of_lt hplace]
      dsimp only
      rw [← hinner, ← hextent, hdiv, hmod]
      have hsum : axisOffset * inner + (along - axisOffset) * inner = along * inner := by
        rw [← Nat.add_mul, Nat.add_sub_cancel' hfrom]
      omega
    · obtain ⟨visit, hvisit, hplace⟩ := ih hrest (Nat.not_lt.1 hlt)
      exact ⟨visit, List.mem_append_right _ hvisit, hplace⟩

end Rumoca.Solve.Affinity
