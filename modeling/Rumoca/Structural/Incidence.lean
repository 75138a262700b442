import Rumoca.Machine
/-!
# Scalar incidence

The compatibility graph of scalar equations and unknowns, the structured
families predicted over it, and the dependency graph of a matching. An
`Incidence` carries what its issuers establish: as many rows as equations,
every column inside the unknown table, and equation `i` named `EquationRef(i)`.
-/

namespace Rumoca.Structural

/-! ## Rows -/

/-- `IncidenceRows`: one run of columns per equation, strictly ascending. The
source stores the runs end to end, with an offset table. -/
structure IncidenceRows where
  runs : List (List Nat)
  canonical : ∀ run ∈ runs, run.Pairwise (· < ·)

namespace IncidenceRows

def len (rows : IncidenceRows) : Nat := rows.runs.length

/-- The unknowns `equation` references; out-of-range rows read as empty. -/
def row (rows : IncidenceRows) (equation : Nat) : List Nat := (rows.runs[equation]?).getD []

/-- Whether `equation` references `var`. -/
def contains (rows : IncidenceRows) (equation var : Nat) : Bool := var ∈ rows.row equation

/-- Build from hash sets, here lists in their iteration order. -/
def fromSets (sets : List (List Nat)) : IncidenceRows where
  runs := sets.map sortDedup
  canonical run h := by
    obtain ⟨set, _, rfl⟩ := List.mem_map.1 h
    exact sortDedup_sorted set

variable {rows : IncidenceRows} {equation var : Nat}

theorem row_eq_nil (h : rows.len ≤ equation) : rows.row equation = [] := by
  simp [row, List.getElem?_eq_none h]

@[simp] theorem contains_iff : rows.contains equation var = true ↔ var ∈ rows.row equation := by
  simp [contains]

end IncidenceRows

/-! ## Structured families -/

/-- The binder coordinate of `point` along one dimension. -/
def cellCoordinate (point stride extent : Nat) : Nat :=
  if stride = 0 ∨ extent = 0 then 0 else (point / stride) % extent

/-- Affine matching candidates of one structured family. -/
structure StructuredMatchingFamily where
  sourceOwnerIndex : Nat
  firstEquationIndex : Nat
  equationsPerPoint : Nat
  pointCount : Nat
  extents : List Nat
  cellStrides : List Nat
  baseUnknowns : List Nat
  unknownSteps : List (List Int)
deriving DecidableEq, Repr

namespace StructuredMatchingFamily

/-- `unknown` advanced by `step` along a dimension at `coordinate`. -/
def advanceUnknown (unknown : Int) (coordinate : Nat) (step : Int) : Option Int := do
  let coordinate ← checkedI64 coordinate
  let product ← checkedI64 (coordinate * step)
  checkedI64 (unknown + product)

/-- The row of `point` and `equation_position`. -/
def candidateEquation (family : StructuredMatchingFamily) (point position : Nat) : Option Nat := do
  let base ← checkedUsize (point * family.equationsPerPoint)
  let offset ← checkedUsize (base + position)
  checkedUsize (offset + family.firstEquationIndex)

/-- The `(equation, unknown)` pair predicted for one point and body. -/
def candidate (family : StructuredMatchingFamily) (point position : Nat) : Option (Nat × Nat) :=
  if point ≥ family.pointCount ∨ position ≥ family.equationsPerPoint then none
  else do
    let equation ← family.candidateEquation point position
    let base ← family.baseUnknowns[position]?
    let base ← checkedI64 base
    let steps ← family.unknownSteps[position]?
    let unknown ← steps.zipIdx.foldlM (fun unknown (step, dimension) => do
      let stride ← family.cellStrides[dimension]?
      let extent ← family.extents[dimension]?
      advanceUnknown unknown (cellCoordinate point stride extent) step) base
    let unknown ← usizeOfI64 unknown
    pure (equation, unknown)

def rowCount (family : StructuredMatchingFamily) : Option Nat :=
  checkedUsize (family.pointCount * family.equationsPerPoint)

def rowRange (family : StructuredMatchingFamily) : Option (Nat × Nat) := do
  let count ← family.rowCount
  let stop ← checkedUsize (family.firstEquationIndex + count)
  pure (family.firstEquationIndex, stop)

theorem rowRange_eq_some {family : StructuredMatchingFamily} {range : Nat × Nat}
    (h : family.rowRange = some range) :
    range.1 = family.firstEquationIndex ∧
      range.2 = family.firstEquationIndex + family.pointCount * family.equationsPerPoint := by
  simp only [rowRange, rowCount, Option.bind_eq_bind, Option.bind_eq_some_iff, Option.pure_def,
    Option.some.injEq, checkedUsize_eq_some] at h
  obtain ⟨_, ⟨rfl, _⟩, _, ⟨rfl, _⟩, rfl⟩ := h
  exact ⟨rfl, rfl⟩

theorem candidate_equation {family : StructuredMatchingFamily} {point position equation unknown : Nat}
    (h : family.candidate point position = some (equation, unknown)) :
    equation = family.firstEquationIndex + (point * family.equationsPerPoint + position) := by
  simp only [candidate, candidateEquation] at h
  split at h
  · cases h
  · simp only [Option.bind_eq_bind, Option.bind_eq_some_iff, Option.pure_def, Option.some.injEq,
      Prod.mk.injEq, checkedUsize_eq_some] at h
    obtain ⟨_, ⟨_, ⟨rfl, _⟩, _, ⟨rfl, _⟩, rfl, _⟩, _, _, _, _, _, _, _, _, _, _, rfl, _⟩ := h
    omega

theorem exists_point {family : StructuredMatchingFamily} {row : Nat}
    (hlo : family.firstEquationIndex ≤ row)
    (hhi : row < family.firstEquationIndex + family.pointCount * family.equationsPerPoint) :
    ∃ point < family.pointCount, ∃ position < family.equationsPerPoint,
      row = family.firstEquationIndex + (point * family.equationsPerPoint + position) := by
  have hpos : 0 < family.equationsPerPoint := by
    rcases Nat.eq_zero_or_pos family.equationsPerPoint with h | h
    · rw [h, Nat.mul_zero] at hhi; omega
    · exact h
  refine ⟨(row - family.firstEquationIndex) / family.equationsPerPoint, ?_,
    (row - family.firstEquationIndex) % family.equationsPerPoint, Nat.mod_lt _ hpos, ?_⟩
  · rw [Nat.div_lt_iff_lt_mul hpos]; omega
  · have := Nat.div_add_mod' (row - family.firstEquationIndex) family.equationsPerPoint
    omega

end StructuredMatchingFamily

/-! ## Incidence data -/

structure EquationRef where
  index : Nat
deriving DecidableEq, Repr

/-- One scalar unknown with the declaration that owns it. -/
inductive UnknownId where
  | Derivative (state scalar : Nat)
  | Algebraic (var scalar : Nat)
  | Solver (index : Nat)
  | Unmatched (equation : Nat)
deriving DecidableEq, Repr

structure Incidence where
  nEq : Nat
  nVar : Nat
  eqUnknowns : IncidenceRows
  unknowns : List UnknownId
  equationRefs : List EquationRef
  structuredMatching : List StructuredMatchingFamily
  ownerFirstRow : List Nat
  rows_len : eqUnknowns.len = nEq
  unknowns_len : unknowns.length = nVar
  refs_eq : equationRefs = (List.range nEq).map EquationRef.mk
  columns_lt : ∀ equation, ∀ unknown ∈ eqUnknowns.row equation, unknown < nVar

/-- Incidence of a solver projection; `none` when a row names an unknown
outside the table. -/
def solverIncidence (rows : List (List Nat)) (unknownCount : Nat) : Option Incidence :=
  let eqUnknowns := IncidenceRows.fromSets rows
  if h : ∀ run ∈ eqUnknowns.runs, ∀ index ∈ run, index < unknownCount then
    some {
      nEq := eqUnknowns.len
      nVar := unknownCount
      eqUnknowns := eqUnknowns
      unknowns := (List.range unknownCount).map .Solver
      equationRefs := (List.range eqUnknowns.len).map .mk
      structuredMatching := []
      ownerFirstRow := List.range (eqUnknowns.len + 1)
      rows_len := rfl
      unknowns_len := by simp
      refs_eq := rfl
      columns_lt := by
        intro equation unknown hu
        simp only [IncidenceRows.row] at hu
        cases hr : eqUnknowns.runs[equation]? with
        | none => simp [hr] at hu
        | some run => exact h run (List.mem_of_getElem? hr) unknown (by simpa [hr] using hu) }
  else none

/-! ## The dependency graph -/

def dependencyRow (eqUnknowns : IncidenceRows) (matchVar : List (Option Nat)) (equation : Nat) : List Nat :=
  sortDedup ((eqUnknowns.row equation).filterMap fun unknown =>
    match (matchVar[unknown]?).join with
    | none => none
    | some owner => if owner = equation then none else some owner)

def buildDependencyGraph (eqUnknowns : IncidenceRows) (matchVar : List (Option Nat)) (nEq : Nat) :
    List (List Nat) :=
  (List.range nEq).map (dependencyRow eqUnknowns matchVar)

theorem mem_dependencyRow {eqUnknowns : IncidenceRows} {matchVar : List (Option Nat)} {equation owner : Nat} :
    owner ∈ dependencyRow eqUnknowns matchVar equation ↔
      owner ≠ equation ∧ ∃ unknown ∈ eqUnknowns.row equation, matchVar[unknown]? = some (some owner) := by
  simp only [dependencyRow, mem_sortDedup, List.mem_filterMap]
  constructor
  · rintro ⟨unknown, hu, h⟩
    split at h
    · cases h
    · rename_i o ho
      split at h
      · cases h
      · obtain rfl := Option.some.inj h
        exact ⟨by assumption, unknown, hu, by simpa [Option.join_eq_some_iff] using ho⟩
  · rintro ⟨hne, unknown, hu, h⟩
    exact ⟨unknown, hu, by simp [h, hne]⟩

end Rumoca.Structural
