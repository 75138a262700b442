import Rumoca.Core.StructuredDomain
import Rumoca.Lib.PartitionPoint
/-!
# Structural patterns

The certified places of a matrix that may be nonzero, in one of several
representations. A stacked pattern gives the rows of flat ones to the rows of
the whole. The columns visited in a row are columns of the matrix and cover
the places the pattern contains.
-/

namespace Rumoca.Solve

open Core Lib

inductive StructuralPatternError where
  | InvalidRowOffsetCount (expected found : Nat)
  | FirstRowOffsetNotZero (found : Nat)
  | NonMonotoneRowOffsets (row : Nat)
  | FinalRowOffsetMismatch (expected found : Nat)
  | ColumnOutOfBounds (row column columns : Nat)
  | ColumnsNotStrictlyIncreasing (row : Nat)
  | DependencyContract (message : String)
deriving DecidableEq, Repr

/-- A seed coordinate across a domain, with one stride for each of its binders. -/
structure AffineColumnMap where
  start : Nat
  strides : List Int

/-- The representations other than a stack. -/
inductive FlatRepresentation where
  | Empty
  | Full
  | Diagonal
  | Banded (lowerBandwidth upperBandwidth : Nat)
  | Csr (rowOffsets columnIndices : List Nat)
  | Affine (domain : StructuredIndexDomain) (rowStart : Nat) (columnMaps : List AffineColumnMap)

/-! ## Compressed rows -/

/-- The entries `start..stop`, when the list has them. -/
def slice (entries : List Nat) (start stop : Nat) : Option (List Nat) :=
  if start ≤ stop ∧ stop ≤ entries.length then some ((entries.take stop).drop start) else none

/-- The inner loop of `validate_csr`. -/
def validateColumns (row columns : Nat) : Option Nat → List Nat → Except StructuralPatternError Unit
  | _, [] => .ok ()
  | previous, column :: rest =>
    if columns ≤ column then .error (.ColumnOutOfBounds row column columns)
    else if previous.any (column ≤ ·) then .error (.ColumnsNotStrictlyIncreasing row)
    else validateColumns row columns (some column) rest

/-- One row of `validate_csr`. -/
def validateCsrRow (columns : Nat) (rowOffsets columnIndices : List Nat) (row : Nat) :
    Except StructuralPatternError Unit :=
  let start := rowOffsets.getD row 0
  let stop := rowOffsets.getD (row + 1) 0
  if stop < start then .error (.NonMonotoneRowOffsets row)
  else
    match slice columnIndices start stop with
    | none => .error (.FinalRowOffsetMismatch columnIndices.length stop)
    | some entries => validateColumns row columns none entries

def validateCsr (rows columns : Nat) (rowOffsets columnIndices : List Nat) : Except StructuralPatternError Unit := do
  if rowOffsets.length ≠ rows + 1 then throw (.InvalidRowOffsetCount (rows + 1) rowOffsets.length)
  if rowOffsets.head? ≠ some 0 then throw (.FirstRowOffsetNotZero (rowOffsets.headD (u32Limit - 1)))
  (List.range rows).forM (validateCsrRow columns rowOffsets columnIndices)
  if rowOffsets.getLastD (u32Limit - 1) ≠ columnIndices.length then
    throw (.FinalRowOffsetMismatch columnIndices.length (rowOffsets.getLastD (u32Limit - 1)))

/-- The columns listed for a row; `none` where an offset or the slice is outside. -/
def rowColumns (rowOffsets columnIndices : List Nat) (row : Nat) : Option (List Nat) :=
  match rowOffsets[row]?, rowOffsets[row + 1]? with
  | some start, some stop => slice columnIndices start stop
  | _, _ => none

/-! ## Affine patterns -/

def domainErrorText : StructuredIndexDomainError → String
  | .ZeroStep binderId displayName => s!"index binder `{displayName}` ({binderId}) has zero step"
  | .ScalarCountOverflow => "structured domain scalar count overflows usize"
  | .BinderValueOverflow binderId displayName =>
    s!"index binder `{displayName}` ({binderId}) value stepping overflows i64"

def affineDomain {α : Type} (result : DomainResult α) : Except StructuralPatternError α :=
  match result.run with
  | some (.ok value) => .ok value
  | some (.error error) => .error (.DependencyContract s!"invalid affine domain: {domainErrorText error}")
  | none => .error (.DependencyContract "invalid affine domain")

def widen (bounds : Int × Int) (extent : Nat) (stride : Int) : Int × Int :=
  let offset := ((extent - 1 : Nat) : Int) * stride
  if offset < 0 then (bounds.1 + offset, bounds.2) else (bounds.1, bounds.2 + offset)

def columnBounds (extents : List Nat) (map : AffineColumnMap) : Int × Int :=
  (extents.zip map.strides).foldl (fun bounds axis => widen bounds axis.1 axis.2) (↑map.start, ↑map.start)

def validateColumnMap (extents : List Nat) (columns : Nat) (map : AffineColumnMap) : Except StructuralPatternError Unit :=
  let bounds := columnBounds extents map
  if map.strides.length ≠ extents.length then
    .error (.DependencyContract
      s!"affine column map rank {map.strides.length} does not match domain rank {extents.length}")
  else if bounds.1 < 0 ∨ (columns : Int) ≤ bounds.2 then
    .error (.DependencyContract s!"affine column range {bounds.1}..={bounds.2} exceeds 0..{columns}")
  else .ok ()

def validateAffinePattern (domain : StructuredIndexDomain) (rowStart : Nat) (columnMaps : List AffineColumnMap)
    (rows columns : Nat) : Except StructuralPatternError Unit := do
  let pointCount ← affineDomain domain.validate
  if usizeLimit ≤ rowStart + pointCount then throw (.DependencyContract "affine row extent overflows")
  if rows < rowStart + pointCount then
    throw (.DependencyContract s!"affine rows {rowStart}..{rowStart + pointCount} exceed 0..{rows}")
  let extents ← affineDomain domain.extents
  columnMaps.forM (validateColumnMap extents columns)

/-- The positions of an ordinal, the last extent varying fastest, and what is left of the ordinal. -/
def affinePositions : List Nat → Nat → Option (List Nat × Nat)
  | [], ordinal => some ([], ordinal)
  | extent :: rest, ordinal =>
    (affinePositions rest ordinal).bind fun (positions, remainder) =>
      if extent = 0 then none else some (remainder % extent :: positions, remainder / extent)

def affineColumn (positions : List Nat) (map : AffineColumnMap) : Int :=
  (positions.zip map.strides).foldl (fun column axis => column + (axis.1 : Int) * axis.2) ↑map.start

def affineColumnsForRow (domain : StructuredIndexDomain) (rowStart : Nat) (columnMaps : List AffineColumnMap) (row : Nat) :
    Option (List Nat) := do
  if row < rowStart then none
  let extents ← (affineDomain domain.extents).toOption
  let pointCount ← extents.foldlM (fun count extent => checkedUsize (count * extent)) 1
  if pointCount ≤ row - rowStart then none
  let (positions, _) ← affinePositions extents (row - rowStart)
  let columns ← columnMaps.mapM fun map => (affineColumn positions map).toNat?
  return sortDedup columns

/-! ## Flat patterns -/

namespace FlatRepresentation

/-- What the checked constructors ensure. -/
def Valid (rows columns : Nat) : FlatRepresentation → Prop
  | Csr rowOffsets columnIndices => validateCsr rows columns rowOffsets columnIndices = .ok ()
  | Affine domain rowStart columnMaps =>
    validateAffinePattern domain rowStart columnMaps rows columns = .ok () ∧ domain.validate ≠ pure 0 ∧ columnMaps ≠ []
  | _ => True

def isCsr : FlatRepresentation → Bool
  | Csr _ _ => true
  | _ => false

def contains (representation : FlatRepresentation) (rows columns row column : Nat) : Bool :=
  if rows ≤ row ∨ columns ≤ column then false
  else
    match representation with
    | Empty => false
    | Full => true
    | Diagonal => row == column
    | Banded lowerBandwidth upperBandwidth =>
      row ≤ min (column + lowerBandwidth) (u32Limit - 1) && column ≤ min (row + upperBandwidth) (u32Limit - 1)
    | Csr rowOffsets columnIndices =>
      (rowColumns rowOffsets columnIndices row).any fun columns =>
        if columns.length ≤ 8 then columns.contains column else (binarySearch columns column).isSome
    | Affine domain rowStart columnMaps =>
      (affineColumnsForRow domain rowStart columnMaps row).any fun columns => (binarySearch columns column).isSome

/-- The columns visited in a row, in order; `none` where an index is out of bounds. -/
def visitRowColumns (representation : FlatRepresentation) (columns row : Nat) : Option (List Nat) :=
  match representation with
  | Empty => some []
  | Full => some (List.range columns)
  | Diagonal => some (if row < columns then [row] else [])
  | Banded lowerBandwidth upperBandwidth =>
    some (List.range' (row - lowerBandwidth) (min (row + upperBandwidth + 1) columns - (row - lowerBandwidth)))
  | Csr rowOffsets columnIndices => rowColumns rowOffsets columnIndices row
  | Affine domain rowStart columnMaps => some ((affineColumnsForRow domain rowStart columnMaps row).getD [])

def bandedNonzeroCount (rows columns lowerBandwidth upperBandwidth : Nat) : Option Nat :=
  (List.range rows).foldlM (fun count row => do
    let stop ← checkedUsize (row + upperBandwidth + 1)
    checkedUsize (count + (min stop columns - (row - lowerBandwidth)))) 0

def nonzeroUpperBound (representation : FlatRepresentation) (rows columns : Nat) : Option Nat :=
  match representation with
  | Empty => some 0
  | Full => checkedUsize (rows * columns)
  | Diagonal => some (min rows columns)
  | Banded lowerBandwidth upperBandwidth => bandedNonzeroCount rows columns lowerBandwidth upperBandwidth
  | Csr _ columnIndices => some columnIndices.length
  | Affine domain _ columnMaps => do
    let count ← (affineDomain domain.validate).toOption
    checkedUsize (count * columnMaps.length)

end FlatRepresentation

/-- A checked pattern that is not stacked. -/
structure FlatPattern where
  rows : Nat
  columns : Nat
  representation : FlatRepresentation
  rows_u32 : rows < u32Limit
  valid : representation.Valid rows columns

/-! ## Stacked patterns -/

/-- Where the rows of a segment sit among the stacked rows. -/
inductive SegmentRows where
  | Contiguous (start : Nat)
  | Strided (start : Nat) (extents strides : List Nat)
  | Listed (rows : List Nat)

def nestedOrder (extents strides : List Nat) : List Nat :=
  ((List.range extents.length).filter fun dimension => 1 < extents.getD dimension 0).insertionSort
    fun a b => strides.getD a 0 ≤ strides.getD b 0

def stridesNest (extents strides : List Nat) : Bool :=
  ((nestedOrder extents strides).foldlM (fun span dimension =>
    let stride := strides.getD dimension 0
    if stride < span then none else some (span + stride * (extents.getD dimension 0 - 1))) 1).isSome

/-- One dimension of `strided_local`. -/
def takeDigit (extents strides : List Nat) (state : List Nat × Nat) (dimension : Nat) : Option (List Nat × Nat) :=
  let position := state.2 / strides.getD dimension 0
  if extents.getD dimension 0 ≤ position then none
  else some (state.1.set dimension position, state.2 - position * strides.getD dimension 0)

def rowMajorOrdinal (positions extents : List Nat) : Nat :=
  (positions.zip extents).foldl (fun ordinal axis => ordinal * axis.2 + axis.1) 0

def stridedLocal (offset : Nat) (extents strides : List Nat) : Option Nat := do
  let (positions, remainder) ← (nestedOrder extents strides).reverse.foldlM (takeDigit extents strides)
    (List.replicate extents.length 0, offset)
  if remainder ≠ 0 then none
  return rowMajorOrdinal positions extents

namespace SegmentRows

def rowOf : SegmentRows → Nat → Nat
  | Contiguous start, localRow => start + localRow
  | Strided start extents strides, localRow =>
    ((extents.zip strides).foldr (fun axis state => (state.1 + state.2 % axis.1 * axis.2, state.2 / axis.1))
      (start, localRow)).1
  | Listed rows, localRow => rows.getD localRow 0

/-- The segment's own row placed at a stacked row, when the segment owns it. -/
def localOf (height row : Nat) : SegmentRows → Option Nat
  | Contiguous start => if start ≤ row ∧ row - start < height then some (row - start) else none
  | Strided start extents strides => if start ≤ row then stridedLocal (row - start) extents strides else none
  | Listed rows => binarySearch rows row

def consistent (height : Nat) : SegmentRows → Bool
  | Contiguous _ => true
  | Strided _ extents strides =>
    extents.length == strides.length &&
      extents.foldlM (fun count extent => checkedUsize (count * extent)) 1 == some height && stridesNest extents strides
  | Listed rows => rows.length == height && (rows.zip rows.tail).all fun pair => pair.1 < pair.2

end SegmentRows

/-- One segment of a stacked pattern; it is never itself stacked. -/
structure PatternSegment where
  rows : SegmentRows
  pattern : FlatPattern

namespace PatternSegment

def height (segment : PatternSegment) : Nat := segment.pattern.rows

def claimRow (segment : PatternSegment) (owned : List Bool) (localRow : Nat) : Except StructuralPatternError (List Bool) :=
  let row := segment.rows.rowOf localRow
  if owned[row]? = some false then .ok (owned.set row true)
  else .error (.DependencyContract s!"stacked row {row} is outside 0..{owned.length} or owned twice")

def validate (columns : Nat) (owned : List Bool) (segment : PatternSegment) : Except StructuralPatternError (List Bool) :=
  if segment.pattern.columns ≠ columns then
    .error (.DependencyContract "a stacked segment does not cover the pattern's columns")
  else if segment.rows.consistent segment.height then (List.range segment.height).foldlM segment.claimRow owned
  else .error (.DependencyContract "a stacked segment's row map does not place its rows one to one")

def localOf (segment : PatternSegment) (row : Nat) : Option Nat := segment.rows.localOf segment.height row

end PatternSegment

def segmentForRow (segments : List PatternSegment) (row : Nat) : Option (PatternSegment × Nat) :=
  segments.findSome? fun segment => (segment.localOf row).map fun localRow => (segment, localRow)

inductive PatternRepresentation where
  | Flat (representation : FlatRepresentation)
  | Stacked (segments : List PatternSegment)

/-- What the checked constructors ensure. -/
def PatternRepresentation.Valid (rows columns : Nat) : PatternRepresentation → Prop
  | Flat representation => representation.Valid rows columns
  | Stacked segments =>
    ∃ owned, segments.foldlM (PatternSegment.validate columns) (List.replicate rows false) = .ok owned

structure StructuralPattern where
  rows : Nat
  columns : Nat
  representation : PatternRepresentation
  rows_u32 : rows < u32Limit
  valid : representation.Valid rows columns

namespace StructuralPattern

variable (pattern : StructuralPattern)

/-- `view()` is `Diagonal`. -/
def viewsDiagonal : Bool :=
  match pattern.representation with
  | .Flat .Diagonal => true
  | _ => false

def contains (row column : Nat) : Bool :=
  match pattern.representation with
  | .Flat representation => representation.contains pattern.rows pattern.columns row column
  | .Stacked segments =>
    if pattern.rows ≤ row ∨ pattern.columns ≤ column then false
    else (segmentForRow segments row).any fun (segment, localRow) =>
      segment.pattern.representation.contains segment.pattern.rows segment.pattern.columns (localRow % u32Limit) column

def visitRowColumns (row : Nat) : Option (List Nat) :=
  match pattern.representation with
  | .Flat representation => representation.visitRowColumns pattern.columns row
  | .Stacked segments =>
    match segmentForRow segments row with
    | none => some []
    | some (segment, localRow) => segment.pattern.representation.visitRowColumns segment.pattern.columns localRow

def nonzeroUpperBound : Option Nat :=
  match pattern.representation with
  | .Flat representation => representation.nonzeroUpperBound pattern.rows pattern.columns
  | .Stacked segments =>
    segments.foldlM (fun total segment => do
      let count ← segment.pattern.representation.nonzeroUpperBound segment.pattern.rows segment.pattern.columns
      checkedUsize (total + count)) 0

/-- The row is taken for one of a segment without rows, which lists its columns by row. -/
def straysAt (row : Nat) : Bool :=
  match pattern.representation with
  | .Flat _ => false
  | .Stacked segments =>
    (segmentForRow segments row).any fun (segment, _) => segment.height == 0 && segment.pattern.representation.isCsr

end StructuralPattern

end Rumoca.Solve
