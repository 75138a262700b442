import Rumoca.Lib.Loop
import Rumoca.Solve.StructuralPattern
/-!
# The rows of structural patterns

Visiting a row of a checked pattern yields columns of the matrix and every
column the row contains. It fails only at a stacked row that a segment without
rows takes for its own.
-/

namespace Rumoca.Solve

open Core Lib

/-! ## Compressed rows -/

theorem validateColumns_ok {row columns : Nat} {previous : Option Nat} {entries : List Nat}
    (h : validateColumns row columns previous entries = .ok ()) :
    (∀ column ∈ entries, column < columns) ∧ entries.Pairwise (· < ·) ∧
      ∀ last ∈ previous, ∀ column ∈ entries, last < column := by
  induction entries generalizing previous with
  | nil => simp
  | cons column rest ih =>
    rw [validateColumns] at h
    split at h
    · cases h
    · next hlt =>
      split at h
      · cases h
      · next hprevious =>
        obtain ⟨hbound, hsorted, hlast⟩ := ih h
        have hcolumn : ∀ other ∈ rest, column < other := hlast column rfl
        refine ⟨?_, List.pairwise_cons.2 ⟨hcolumn, hsorted⟩, ?_⟩
        · intro other hother
          rcases List.mem_cons.1 hother with rfl | hother
          · exact Nat.lt_of_not_le hlt
          · exact hbound other hother
        · intro last hmem other hother
          have hlt' : last < column := by
            rw [Option.mem_def.1 hmem] at hprevious
            simpa using hprevious
          rcases List.mem_cons.1 hother with rfl | hother
          · exact hlt'
          · exact hlt'.trans (hcolumn other hother)

theorem forM_eq_ok {α ε : Type} {check : α → Except ε Unit} {l : List α} (h : l.forM check = .ok ()) :
    ∀ a ∈ l, check a = .ok () := by
  induction l with
  | nil => simp
  | cons a l ih =>
    change (check a >>= fun _ => l.forM check) = .ok () at h
    cases ha : check a with
    | error e =>
      rw [ha] at h
      cases h
    | ok u =>
      rw [ha] at h
      exact List.forall_mem_cons.2 ⟨ha, ih h⟩

theorem validateCsr_ok {rows columns : Nat} {rowOffsets columnIndices : List Nat}
    (h : validateCsr rows columns rowOffsets columnIndices = .ok ()) :
    rowOffsets.length = rows + 1 ∧ ∀ row < rows, validateCsrRow columns rowOffsets columnIndices row = .ok () := by
  simp only [validateCsr] at h
  split at h
  · cases h
  · next hlength =>
    refine ⟨not_not.1 hlength, fun row hrow => ?_⟩
    split at h
    · cases h
    · cases hrows : (List.range rows).forM (validateCsrRow columns rowOffsets columnIndices) with
      | error e =>
        rw [hrows] at h
        cases h
      | ok u => exact forM_eq_ok hrows row (List.mem_range.2 hrow)

theorem rowColumns_spec {rows columns : Nat} {rowOffsets columnIndices : List Nat}
    (h : validateCsr rows columns rowOffsets columnIndices = .ok ()) (row : Nat) :
    (∃ cut, rowColumns rowOffsets columnIndices row = some cut ∧ row < rows ∧ cut.Pairwise (· < ·) ∧
        ∀ column ∈ cut, column < columns) ∨
      rowColumns rowOffsets columnIndices row = none ∧ rows ≤ row := by
  obtain ⟨hlength, hrows⟩ := validateCsr_ok h
  rcases Nat.lt_or_ge row rows with hrow | hrow
  · have hcheck := hrows row hrow
    have hstart : rowOffsets[row]? = some (rowOffsets.getD row 0) := by
      rw [List.getD_eq_getElem?_getD, List.getElem?_eq_getElem (by omega)]
      rfl
    have hstop : rowOffsets[row + 1]? = some (rowOffsets.getD (row + 1) 0) := by
      rw [List.getD_eq_getElem?_getD, List.getElem?_eq_getElem (by omega)]
      rfl
    rw [rowColumns, hstart, hstop]
    simp only [validateCsrRow] at hcheck
    split at hcheck
    · cases hcheck
    · split at hcheck
      · cases hcheck
      · next cut hcut =>
        obtain ⟨hbound, hsorted, -⟩ := validateColumns_ok hcheck
        exact .inl ⟨cut, hcut, hrow, hsorted, hbound⟩
  · refine .inr ⟨?_, hrow⟩
    rw [rowColumns, List.getElem?_eq_none (i := row + 1) (by omega)]
    cases rowOffsets[row]? <;> rfl

/-! ## Affine patterns -/

theorem affinePositions_lt {extents : List Nat} {ordinal : Nat} {positions : List Nat} {remainder : Nat}
    (h : affinePositions extents ordinal = some (positions, remainder)) : List.Forall₂ (· < ·) positions extents := by
  induction extents generalizing positions remainder with
  | nil =>
    obtain ⟨rfl, -⟩ := Prod.mk.inj (Option.some.inj h)
    exact .nil
  | cons extent rest ih =>
    rw [affinePositions] at h
    obtain ⟨⟨tail, left⟩, htail, hstep⟩ := Option.bind_eq_some_iff.1 h
    dsimp only at hstep
    split at hstep
    · cases hstep
    · next hextent =>
      obtain ⟨rfl, -⟩ := Prod.mk.inj (Option.some.inj hstep)
      exact .cons (Nat.mod_lt _ (Nat.pos_of_ne_zero hextent)) (ih htail)

theorem widen_bounds {bounds : Int × Int} {extent position : Nat} {column : Int} (stride : Int) (hposition : position < extent)
    (hlow : bounds.1 ≤ column) (hhigh : column ≤ bounds.2) :
    (widen bounds extent stride).1 ≤ column + position * stride ∧
      column + position * stride ≤ (widen bounds extent stride).2 := by
  have hlast : (position : Int) ≤ ((extent - 1 : Nat) : Int) := by omega
  have hzero : (0 : Int) ≤ position := by omega
  unfold widen
  dsimp only
  split
  · next hneg =>
    have hstride : stride ≤ 0 := by
      by_contra hpos
      exact absurd hneg (not_lt.2 (mul_nonneg (by omega) (by omega)))
    have hmul : ((extent - 1 : Nat) : Int) * stride ≤ position * stride := mul_le_mul_of_nonpos_right hlast hstride
    have hnonpos : (position : Int) * stride ≤ 0 := mul_nonpos_of_nonneg_of_nonpos hzero hstride
    constructor <;> dsimp only <;> omega
  · next hnonneg =>
    rcases lt_or_ge stride 0 with hstride | hstride
    · -- The offset of a negative stride is nonnegative only when the last position is zero.
      have hextent : ((extent - 1 : Nat) : Int) = 0 := by
        by_contra hne
        exact hnonneg (mul_neg_of_pos_of_neg (by omega) hstride)
      have hposition' : (position : Int) = 0 := by omega
      rw [hextent, hposition', zero_mul, add_zero, add_zero]
      exact ⟨hlow, hhigh⟩
    · have hmul : (position : Int) * stride ≤ ((extent - 1 : Nat) : Int) * stride :=
        mul_le_mul_of_nonneg_right hlast hstride
      have hprod : 0 ≤ (position : Int) * stride := mul_nonneg hzero hstride
      constructor <;> dsimp only <;> omega

theorem affineColumn_bounds {extents positions : List Nat} (h : List.Forall₂ (· < ·) positions extents)
    (strides : List Int) {bounds : Int × Int} {column : Int} (hlow : bounds.1 ≤ column) (hhigh : column ≤ bounds.2) :
    ((extents.zip strides).foldl (fun bounds axis => widen bounds axis.1 axis.2) bounds).1 ≤
        (positions.zip strides).foldl (fun column axis => column + (axis.1 : Int) * axis.2) column ∧
      (positions.zip strides).foldl (fun column axis => column + (axis.1 : Int) * axis.2) column ≤
        ((extents.zip strides).foldl (fun bounds axis => widen bounds axis.1 axis.2) bounds).2 := by
  induction h generalizing strides bounds column with
  | nil => exact ⟨hlow, hhigh⟩
  | cons hposition _ ih =>
    cases strides with
    | nil => exact ⟨hlow, hhigh⟩
    | cons stride strides =>
      obtain ⟨hlow', hhigh'⟩ := widen_bounds stride hposition hlow hhigh
      exact ih strides hlow' hhigh'

theorem validateAffinePattern_ok {domain : StructuredIndexDomain} {rowStart rows columns : Nat}
    {columnMaps : List AffineColumnMap} (h : validateAffinePattern domain rowStart columnMaps rows columns = .ok ()) :
    ∀ extents, affineDomain domain.extents = .ok extents →
      ∀ map ∈ columnMaps, validateColumnMap extents columns map = .ok () := by
  intro extents hextents
  simp only [validateAffinePattern, hextents] at h
  cases hcount : affineDomain domain.validate with
  | error e =>
    rw [hcount] at h
    cases h
  | ok pointCount =>
    rw [hcount] at h
    change (if _ then _ else _) = _ at h
    split at h
    · cases h
    · change (if _ then _ else _) = _ at h
      split at h
      · cases h
      · exact forM_eq_ok h

theorem affineColumnsForRow_eq_some {domain : StructuredIndexDomain} {rowStart row : Nat}
    {columnMaps : List AffineColumnMap} {cut : List Nat}
    (h : affineColumnsForRow domain rowStart columnMaps row = some cut) :
    ∃ extents, affineDomain domain.extents = .ok extents ∧ ∃ positions, List.Forall₂ (· < ·) positions extents ∧
      ∃ columns, columnMaps.mapM (fun map => (affineColumn positions map).toNat?) = some columns ∧
        cut = sortDedup columns := by
  unfold affineColumnsForRow at h
  split at h
  · cases h
  · obtain ⟨extents, hextents, h⟩ := Option.bind_eq_some_iff.1 h
    obtain ⟨pointCount, -, h⟩ := Option.bind_eq_some_iff.1 h
    split at h
    · cases h
    · obtain ⟨⟨positions, remainder⟩, hpositions, h⟩ := Option.bind_eq_some_iff.1 h
      obtain ⟨columns, hcolumns, h⟩ := Option.bind_eq_some_iff.1 h
      refine ⟨extents, ?_, positions, affinePositions_lt hpositions, columns, hcolumns, (Option.some.inj h).symm⟩
      cases hdomain : affineDomain domain.extents with
      | error e =>
        rw [hdomain] at hextents
        cases hextents
      | ok value =>
        rw [hdomain] at hextents
        exact congrArg Except.ok (Option.some.inj hextents)

theorem affineColumnsForRow_spec {domain : StructuredIndexDomain} {rowStart rows columns row : Nat}
    {columnMaps : List AffineColumnMap} (hvalid : validateAffinePattern domain rowStart columnMaps rows columns = .ok ())
    {cut : List Nat} (h : affineColumnsForRow domain rowStart columnMaps row = some cut) :
    cut.Pairwise (· < ·) ∧ ∀ column ∈ cut, column < columns := by
  obtain ⟨extents, hextents, positions, hpositions, all, hall, rfl⟩ := affineColumnsForRow_eq_some h
  refine ⟨sortDedup_sorted all, fun column hcolumn => ?_⟩
  obtain ⟨map, hmap, hcolumn⟩ := mapM_mem hall column (mem_sortDedup.1 hcolumn)
  have hcheck := validateAffinePattern_ok hvalid extents hextents map hmap
  simp only [validateColumnMap] at hcheck
  split at hcheck
  · cases hcheck
  · split at hcheck
    · cases hcheck
    · next hbounds =>
      have hstart : ((map.start : Int), (map.start : Int)).1 ≤ map.start := le_rfl
      obtain ⟨-, hhigh⟩ := affineColumn_bounds hpositions map.strides hstart le_rfl
      have hvalue : affineColumn positions map = column := Int.mem_toNat?.1 hcolumn
      have hlt : (columnBounds extents map).2 < columns := not_le.1 fun hle => hbounds (.inr hle)
      have hle : affineColumn positions map ≤ (columnBounds extents map).2 := hhigh
      omega

/-! ## Flat patterns -/

namespace FlatRepresentation

variable {representation : FlatRepresentation} {rows columns row : Nat}

theorem visitRowColumns_eq_none (hvalid : representation.Valid rows columns) :
    representation.visitRowColumns columns row = none ↔ representation.isCsr ∧ rows ≤ row := by
  cases representation with
  | Csr rowOffsets columnIndices =>
    rcases rowColumns_spec hvalid row with ⟨cut, hcut, hrow, -⟩ | ⟨hnone, hrow⟩
    · simp [visitRowColumns, isCsr, hcut, hrow]
    · simp [visitRowColumns, isCsr, hnone, hrow]
  | _ => simp [visitRowColumns, isCsr]

theorem visitRowColumns_lt (hvalid : representation.Valid rows columns) {cut : List Nat}
    (h : representation.visitRowColumns columns row = some cut) : ∀ column ∈ cut, column < columns := by
  cases representation with
  | Empty =>
    obtain rfl := Option.some.inj h
    simp
  | Full =>
    obtain rfl := Option.some.inj h
    simp
  | Diagonal =>
    obtain rfl := Option.some.inj h
    intro column hcolumn
    split at hcolumn
    · next hlt =>
      obtain rfl := List.mem_singleton.1 hcolumn
      exact hlt
    · cases hcolumn
  | Banded lowerBandwidth upperBandwidth =>
    obtain rfl := Option.some.inj h
    intro column hcolumn
    rw [List.mem_range'_1] at hcolumn
    omega
  | Csr rowOffsets columnIndices =>
    rcases rowColumns_spec hvalid row with ⟨cut', hcut, -, -, hbound⟩ | ⟨hnone, -⟩
    · rw [visitRowColumns, hcut] at h
      obtain rfl := Option.some.inj h
      exact hbound
    · rw [visitRowColumns, hnone] at h
      cases h
  | Affine domain rowStart columnMaps =>
    obtain rfl := Option.some.inj h
    cases hcut : affineColumnsForRow domain rowStart columnMaps row with
    | none => simp
    | some cut => exact (affineColumnsForRow_spec hvalid.1 hcut).2

theorem mem_of_contains (hvalid : representation.Valid rows columns) (hrows : rows < u32Limit) {column : Nat}
    (h : representation.contains rows columns row column = true) :
    row < rows ∧ column < columns ∧ ∀ cut, representation.visitRowColumns columns row = some cut → column ∈ cut := by
  unfold contains at h
  split at h
  · cases h
  · next hbounds =>
    rw [not_or, not_le, not_le] at hbounds
    refine ⟨hbounds.1, hbounds.2, fun cut hcut => ?_⟩
    cases representation with
    | Empty => cases h
    | Full =>
      obtain rfl := Option.some.inj hcut
      exact List.mem_range.2 hbounds.2
    | Diagonal =>
      obtain rfl := Option.some.inj hcut
      obtain rfl := beq_iff_eq.1 h
      rw [if_pos hbounds.2]
      exact List.mem_singleton_self row
    | Banded lowerBandwidth upperBandwidth =>
      obtain rfl := Option.some.inj hcut
      simp only [Bool.and_eq_true, decide_eq_true_eq] at h
      rw [List.mem_range'_1]
      omega
    | Csr rowOffsets columnIndices =>
      rw [visitRowColumns] at hcut
      rcases rowColumns_spec hvalid row with ⟨cut', hcut', -, hsorted, -⟩ | ⟨hnone, -⟩
      · rw [hcut'] at hcut
        obtain rfl := Option.some.inj hcut
        dsimp only at h
        rw [hcut', Option.any_some] at h
        split at h
        · exact List.contains_iff_mem.1 h
        · exact (isSome_binarySearch hsorted column).1 h
      · rw [hnone] at hcut
        cases hcut
    | Affine domain rowStart columnMaps =>
      obtain rfl := Option.some.inj hcut
      cases hcolumns : affineColumnsForRow domain rowStart columnMaps row with
      | none =>
        dsimp only at h
        rw [hcolumns] at h
        cases h
      | some cut =>
        dsimp only at h
        rw [hcolumns, Option.any_some] at h
        exact (isSome_binarySearch (affineColumnsForRow_spec hvalid.1 hcolumns).1 column).1 h

end FlatRepresentation

/-! ## Placed rows -/

theorem forall₂_set {xs ys : List Nat} (h : List.Forall₂ (· < ·) xs ys) {i x : Nat} (hx : x < ys.getD i 0) :
    List.Forall₂ (· < ·) (xs.set i x) ys := by
  induction h generalizing i with
  | nil => exact .nil
  | cons hhead _ ih =>
    cases i with
    | zero => exact .cons hx ‹_›
    | succ i => exact .cons hhead (ih hx)

theorem forall₂_replicate_zero {extents : List Nat} (h : ∀ extent ∈ extents, 0 < extent) :
    List.Forall₂ (· < ·) (List.replicate extents.length 0) extents := by
  induction extents with
  | nil => exact .nil
  | cons extent extents ih =>
    obtain ⟨hextent, hrest⟩ := List.forall_mem_cons.1 h
    exact .cons hextent (ih hrest)

theorem rowMajorOrdinal_lt {positions extents : List Nat} (h : List.Forall₂ (· < ·) positions extents) :
    rowMajorOrdinal positions extents < extents.prod := by
  have key : ∀ ordinal count, ordinal < count →
      (positions.zip extents).foldl (fun ordinal axis => ordinal * axis.2 + axis.1) ordinal < count * extents.prod := by
    induction h with
    | nil =>
      intro ordinal count hlt
      rw [List.prod_nil, Nat.mul_one]
      exact hlt
    | @cons position extent positions extents hposition _ ih =>
      intro ordinal count hlt
      rw [List.prod_cons, ← Nat.mul_assoc]
      refine ih _ _ ?_
      calc ordinal * extent + position < ordinal * extent + extent := Nat.add_lt_add_left hposition _
        _ = (ordinal + 1) * extent := (Nat.succ_mul ordinal extent).symm
        _ ≤ count * extent := Nat.mul_le_mul_right _ hlt
  have hlt := key 0 1 Nat.one_pos
  rwa [Nat.one_mul] at hlt

theorem checkedProduct_eq {extents : List Nat} {start product : Nat}
    (h : extents.foldlM (fun count extent => checkedUsize (count * extent)) start = some product) :
    product = start * extents.prod := by
  induction extents generalizing start with
  | nil =>
    rw [List.prod_nil, Nat.mul_one]
    exact (Option.some.inj h).symm
  | cons extent extents ih =>
    rw [List.foldlM_cons] at h
    obtain ⟨count, hcount, hrest⟩ := Option.bind_eq_some_iff.1 h
    obtain ⟨rfl, -⟩ := checkedUsize_eq_some.1 hcount
    rw [ih hrest, List.prod_cons, Nat.mul_assoc]

theorem stridedLocal_lt {offset localRow : Nat} {extents strides : List Nat} (hpos : ∀ extent ∈ extents, 0 < extent)
    (h : stridedLocal offset extents strides = some localRow) : localRow < extents.prod := by
  unfold stridedLocal at h
  obtain ⟨⟨positions, remainder⟩, hdigits, h⟩ := Option.bind_eq_some_iff.1 h
  dsimp only at h
  split at h
  · cases h
  · obtain rfl := Option.some.inj h
    have hinv := foldlM_inv (fun _ (state : List Nat × Nat) => List.Forall₂ (· < ·) state.1 extents) ?_ ?_ hdigits
    · exact rowMajorOrdinal_lt hinv
    · rintro pre dimension post ⟨positions, remainder⟩ state' - hbelow hstep
      unfold takeDigit at hstep
      dsimp only at hstep
      split at hstep
      · cases hstep
      · next hlt =>
        obtain rfl := Option.some.inj hstep
        exact forall₂_set hbelow (Nat.lt_of_not_le hlt)
    · exact forall₂_replicate_zero hpos

theorem SegmentRows.localOf_lt {rows : SegmentRows} {height row localRow : Nat} (hrows : rows.consistent height = true)
    (hheight : 0 < height) (h : rows.localOf height row = some localRow) : localRow < height := by
  cases rows with
  | Contiguous start =>
    rw [localOf] at h
    split at h
    · next hown =>
      obtain rfl := Option.some.inj h
      exact hown.2
    · cases h
  | Strided start extents strides =>
    rw [localOf] at h
    simp only [consistent, Bool.and_eq_true, beq_iff_eq] at hrows
    have hprod : height = extents.prod := by
      rw [checkedProduct_eq hrows.1.2, Nat.one_mul]
    split at h
    · rw [hprod] at hheight ⊢
      exact stridedLocal_lt (fun extent hextent => Nat.pos_of_ne_zero fun hzero =>
        absurd (List.prod_eq_zero (hzero ▸ hextent)) hheight.ne') h
    · cases h
  | Listed listed =>
    rw [localOf] at h
    simp only [consistent, Bool.and_eq_true, beq_iff_eq] at hrows
    unfold binarySearch at h
    dsimp only at h
    split at h
    · next hindex =>
      obtain rfl := Option.some.inj h
      rw [← hrows.1]
      exact (List.getElem?_eq_some_iff.1 hindex).1
    · cases h

/-! ## Stacked patterns -/

theorem segments_valid {segments : List PatternSegment} {columns : Nat} {start owned : List Bool}
    (h : segments.foldlM (PatternSegment.validate columns) start = .ok owned) : ∀ segment ∈ segments,
      segment.pattern.columns = columns ∧ segment.rows.consistent segment.height = true := by
  induction segments generalizing start with
  | nil => simp
  | cons segment segments ih =>
    rw [List.foldlM_cons] at h
    cases hvalid : segment.validate columns start with
    | error e =>
      rw [hvalid] at h
      cases h
    | ok claimed =>
      rw [hvalid] at h
      refine List.forall_mem_cons.2 ⟨?_, ih h⟩
      unfold PatternSegment.validate at hvalid
      split at hvalid
      · cases hvalid
      · next hcolumns =>
        split at hvalid
        · next hrows => exact ⟨not_not.1 hcolumns, hrows⟩
        · cases hvalid

theorem segmentForRow_eq_some {segments : List PatternSegment} {row localRow : Nat} {segment : PatternSegment}
    (h : segmentForRow segments row = some (segment, localRow)) :
    segment ∈ segments ∧ segment.localOf row = some localRow := by
  obtain ⟨owner, howner, hmap⟩ := List.exists_of_findSome?_eq_some h
  obtain ⟨index, hindex, hpair⟩ := Option.map_eq_some_iff.1 hmap
  obtain ⟨rfl, rfl⟩ := Prod.mk.inj hpair
  exact ⟨howner, hindex⟩

namespace StructuralPattern

variable {pattern : StructuralPattern} {row : Nat}

theorem visitRowColumns_eq_none (hrow : row < pattern.rows) :
    pattern.visitRowColumns row = none ↔ pattern.straysAt row = true := by
  obtain ⟨rows, columns, representation, hrows, hvalid⟩ := pattern
  cases representation with
  | Flat representation =>
    have hlt : ¬rows ≤ row := Nat.not_le.2 hrow
    simp [visitRowColumns, straysAt, FlatRepresentation.visitRowColumns_eq_none hvalid, hlt]
  | Stacked segments =>
    obtain ⟨owned, hsegments⟩ := hvalid
    simp only [visitRowColumns, straysAt]
    cases hsegment : segmentForRow segments row with
    | none => simp
    | some place =>
      obtain ⟨segment, localRow⟩ := place
      obtain ⟨hmem, hlocal⟩ := segmentForRow_eq_some hsegment
      have hconsistent := (segments_valid hsegments segment hmem).2
      have hheight : segment.pattern.rows ≤ localRow ↔ segment.height = 0 := by
        constructor
        · intro hle
          by_contra hpos
          exact absurd (segment.rows.localOf_lt hconsistent (Nat.pos_of_ne_zero hpos) hlocal) (Nat.not_lt.2 hle)
        · intro hzero
          exact hzero.le.trans (Nat.zero_le _)
      simp only [FlatRepresentation.visitRowColumns_eq_none segment.pattern.valid, hheight, Option.any_some,
        Bool.and_eq_true, beq_iff_eq]
      exact and_comm

theorem visitRowColumns_lt {cut : List Nat} (h : pattern.visitRowColumns row = some cut) :
    ∀ column ∈ cut, column < pattern.columns := by
  obtain ⟨rows, columns, representation, hrows, hvalid⟩ := pattern
  cases representation with
  | Flat representation => exact FlatRepresentation.visitRowColumns_lt hvalid h
  | Stacked segments =>
    obtain ⟨owned, hsegments⟩ := hvalid
    simp only [visitRowColumns] at h
    split at h
    · obtain rfl := Option.some.inj h
      simp
    · next segment localRow hsegment =>
      have hcolumns := (segments_valid hsegments segment (segmentForRow_eq_some hsegment).1).1
      exact fun column hcolumn =>
        (FlatRepresentation.visitRowColumns_lt segment.pattern.valid h column hcolumn).trans_eq hcolumns

theorem mem_of_contains {column : Nat} (h : pattern.contains row column = true) {cut : List Nat}
    (hcut : pattern.visitRowColumns row = some cut) : column ∈ cut := by
  obtain ⟨rows, columns, representation, hrows, hvalid⟩ := pattern
  cases representation with
  | Flat representation => exact (FlatRepresentation.mem_of_contains hvalid hrows h).2.2 cut hcut
  | Stacked segments =>
    obtain ⟨owned, hsegments⟩ := hvalid
    simp only [contains] at h
    split at h
    · cases h
    · simp only [visitRowColumns] at hcut
      cases hsegment : segmentForRow segments row with
      | none =>
        rw [hsegment] at h
        cases h
      | some place =>
        obtain ⟨segment, localRow⟩ := place
        rw [hsegment] at h hcut
        obtain ⟨hmem, hlocal⟩ := segmentForRow_eq_some hsegment
        obtain ⟨hrow, -, hvisited⟩ := FlatRepresentation.mem_of_contains segment.pattern.valid segment.pattern.rows_u32 h
        have hlt : localRow < segment.pattern.rows :=
          segment.rows.localOf_lt (segments_valid hsegments segment hmem).2 (Nat.zero_lt_of_lt hrow) hlocal
        rw [Nat.mod_eq_of_lt (hlt.trans segment.pattern.rows_u32)] at hvisited
        exact hvisited cut hcut

end StructuralPattern

end Rumoca.Solve
