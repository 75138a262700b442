import Mathlib.Data.Nat.Find
import Mathlib.Data.Rat.Floor
import Mathlib.Tactic.Linarith
import Rumoca.Eval.TableRuntime
/-!
# What a lookup reads

A lookup reads the segment of the last row at or before the argument. With
constant segments and a held end its value is that row's output, but for two
arguments: the first abscissa where several rows share it, and any argument past
the last abscissa where the last two rows share that.
-/

namespace Rumoca.Eval

variable {K : Type} [Field K] [LinearOrder K]

/-! ## Rows -/

namespace ExternalTableData

def knot (table : ExternalTableData K) (i : Nat) : K := (table.data[i]? >>= fun row => row.head?).getD 0

def output (table : ExternalTableData K) (col i : Nat) : K := (table.data[i]? >>= fun row => row[col]?).getD 0

def heldRow (table : ExternalTableData K) (x : K) : Nat :=
  Nat.findGreatest (fun i => table.knot i ≤ x) (table.data.length - 1)

/-- The requested output selects a column that every row holds. -/
structure Reads (table : ExternalTableData K) (requestedOutputCol col : Nat) : Prop where
  column : ∃ row, table.data.head? = some row ∧ 2 ≤ row.length ∧
    selectedTableColumn (K := K) table.columns table.id requestedOutputCol row.length = pure col
  rows : ∀ row ∈ table.data, row ≠ [] ∧ col < row.length

def KnotsAscend (table : ExternalTableData K) : Prop :=
  ∀ i j, i ≤ j → j < table.data.length → table.knot i ≤ table.knot j

/-- The abscissae do not descend, and distinct ones are further apart than both tolerances. -/
structure Ascends (table : ExternalTableData K) : Prop where
  mono : ∀ i j, i ≤ j → j < table.data.length → table.knot i ≤ table.knot j
  apart : ∀ i j, i < j → j < table.data.length → table.knot i ≠ table.knot j →
    epsilon < table.knot j - table.knot i ∧ timeEventEps < table.knot j - table.knot i

end ExternalTableData

open ExternalTableData

section
variable {table : ExternalTableData K} {requestedOutputCol col : Nat}

omit [Field K] [LinearOrder K] in
theorem ExternalTableData.Reads.length_pos (h : table.Reads requestedOutputCol col) : 0 < table.data.length := by
  obtain ⟨row, hrow, -⟩ := h.column
  exact List.length_pos_of_mem (List.mem_of_mem_head? hrow)

omit [LinearOrder K] in
theorem ExternalTableData.Reads.entries (h : table.Reads requestedOutputCol col) {i : Nat} (hi : i < table.data.length) :
    (table.data[i]? >>= fun row => row.head?) = some (table.knot i) ∧
      (table.data[i]? >>= fun row => row[col]?) = some (table.output col i) := by
  obtain ⟨hne, hcol⟩ := h.rows table.data[i] (List.getElem_mem hi)
  obtain ⟨x, rest, hcons⟩ := List.exists_cons_of_ne_nil hne
  have hrow : table.data[i]? = some table.data[i] := List.getElem?_eq_getElem hi
  constructor
  · simp only [knot, hrow, Option.bind_eq_bind, Option.bind_some, hcons, List.head?_cons, Option.getD_some]
  · simp only [output, hrow, Option.bind_eq_bind, Option.bind_some, List.getElem?_eq_getElem hcol, Option.getD_some]

omit [LinearOrder K] in
theorem ExternalTableData.Reads.row (h : table.Reads requestedOutputCol col) {i : Nat} (hi : i < table.data.length) :
    tableRowX table i = pure (table.knot i) ∧ tableRowValue table i col = pure (table.output col i) := by
  obtain ⟨hx, hy⟩ := h.entries hi
  exact ⟨by rw [tableRowX, hx], by rw [tableRowValue, hy]⟩

omit [LinearOrder K] in
theorem ExternalTableData.Reads.bounds (h : table.Reads requestedOutputCol col) :
    tableXBounds table = pure (table.knot 0, table.knot (table.data.length - 1)) := by
  have hpos := h.length_pos
  have hlast : table.data.length - 1 < table.data.length := by omega
  rw [tableXBounds, List.head?_eq_getElem?, List.getLast?_eq_getElem?, (h.entries hpos).1,
    (h.entries hlast).1]

/-! ## Segments -/

def segment (table : ExternalTableData K) (xReal : K) : Nat :=
  if xReal ≤ table.knot 0 then 0
  else if table.knot (table.data.length - 1) ≤ xReal then table.data.length - 2
  else table.heldRow xReal

theorem heldRow_lt (hpos : 0 < table.data.length) (x : K) : table.heldRow x < table.data.length := by
  have hle : table.heldRow x ≤ table.data.length - 1 := Nat.findGreatest_le _
  omega

theorem heldRow_eq {x : K} {i : Nat} (hi : i < table.data.length) (hle : table.knot i ≤ x)
    (hlater : ∀ j, i < j → j < table.data.length → x < table.knot j) : table.heldRow x = i := by
  refine (Nat.findGreatest_eq_iff).2 ⟨by omega, fun _ => hle, fun j hj hlast => ?_⟩
  exact not_le.2 (hlater j hj (by omega))

theorem heldRow_below {x : K} (h : ∀ i < table.data.length, x < table.knot i) : table.heldRow x = 0 := by
  refine (Nat.findGreatest_eq_iff).2 ⟨Nat.zero_le _, fun hne => absurd rfl hne, fun j hj hlast => ?_⟩
  exact not_le.2 (h j (by omega))

theorem heldRow_last (hpos : 0 < table.data.length) {x : K} (hx : table.knot (table.data.length - 1) ≤ x) :
    table.heldRow x = table.data.length - 1 := heldRow_eq (by omega) hx fun j hj hlast => by omega

theorem heldRow_first (h : table.Ascends) {x : K} (hx : x < table.knot 0) : table.heldRow x = 0 :=
  heldRow_below fun i hi => lt_of_lt_of_le hx (h.mono 0 i (Nat.zero_le _) hi)

theorem scanSegment_eq (h : table.Reads requestedOutputCol col) (hmono : table.KnotsAscend) {x : K} {fuel idx : Nat}
    (hidx : idx < table.data.length) (hle : table.knot idx ≤ x) (hfuel : table.data.length ≤ fuel + idx) :
    scanSegment table x fuel idx = pure (table.heldRow x) := by
  induction fuel generalizing idx with
  | zero => omega
  | succ fuel ih =>
    unfold scanSegment
    by_cases hnext : idx + 1 < table.data.length
    · rw [if_pos hnext, (h.row hnext).1]
      simp only [pure_bind]
      by_cases hx : table.knot (idx + 1) ≤ x
      · rw [if_pos hx]
        exact ih hnext hx (by omega)
      · rw [if_neg hx, heldRow_eq hidx hle fun j hj hlast => ?_]
        exact lt_of_lt_of_le (not_le.1 hx) (hmono _ _ hj hlast)
    · rw [if_neg hnext, heldRow_eq hidx hle fun j hj hlast => by omega]

theorem heldRow_le_of_lt {x : K} (hn : 2 ≤ table.data.length)
    (hx : x < table.knot (table.data.length - 1)) : table.heldRow x ≤ table.data.length - 2 := by
  have hle : table.heldRow x ≤ table.data.length - 1 := Nat.findGreatest_le _
  rcases Nat.lt_or_eq_of_le hle with hlt | heq
  · omega
  · have hspec := (Nat.findGreatest_eq_iff.1 heq).2.1 (by omega)
    exact absurd hspec (not_le.2 hx)

theorem lookupSegmentIndex_eq (h : table.Reads requestedOutputCol col) (hmono : table.KnotsAscend)
    (hn : 2 ≤ table.data.length) (xReal : K) : lookupSegmentIndex table xReal = pure (segment table xReal) := by
  have hfirst := (h.row (show 0 < table.data.length by omega)).1
  have hlast := (h.row (show table.data.length - 1 < table.data.length by omega)).1
  unfold lookupSegmentIndex segment
  rw [if_neg (by omega), if_neg (by omega), hfirst]
  simp only [pure_bind]
  split_ifs with hlow hhigh
  · rfl
  · rw [hlast]
    simp only [pure_bind, hhigh, if_true]
    rfl
  · rw [hlast]
    simp only [pure_bind, hhigh, if_false]
    rw [scanSegment_eq h hmono (by omega) (not_le.1 hlow).le (by omega)]
    simp only [pure_bind]
    rw [Nat.sub_sub, min_eq_left (heldRow_le_of_lt hn (not_le.1 hhigh))]

theorem segment_le (hn : 2 ≤ table.data.length) (xReal : K) : segment table xReal ≤ table.data.length - 2 := by
  unfold segment
  split_ifs with hlow hhigh
  · exact Nat.zero_le _
  · exact le_refl _
  · exact heldRow_le_of_lt hn (not_le.1 hhigh)

/-! ## A lookup by its segment -/

section
variable [FloorRing K]

def segmentResult (table : ExternalTableData K) (col : Nat) (xReal : K) (outOfRange preserveSlope : Bool) (k : Nat) :
    Except (TableRuntimeError K) (TableLookupResult K) :=
  if table.smoothness = 3 ∧ outOfRange = false then
    pure ⟨table.output col (if table.knot (table.data.length - 1) ≤ xReal then table.data.length - 1 else k), 0⟩
  else if |table.knot (k + 1) - table.knot k| ≤ epsilon then pure ⟨table.output col k, 0⟩
  else if table.smoothness = 2 ∧ 3 ≤ table.data.length then
    evalAkima1d table col xReal k outOfRange preserveSlope
  else
    let slope := (table.output col (k + 1) - table.output col k) / (table.knot (k + 1) - table.knot k)
    pure ⟨table.output col k + (xReal - table.knot k) * slope, if preserveSlope then slope else 0⟩

theorem lookup_eq (h : table.Reads requestedOutputCol col) (hmono : table.KnotsAscend) (hn : 2 ≤ table.data.length)
    (hne : table.knot 0 ≠ table.knot (table.data.length - 1)) (x : K) :
    evalTable1dLookup table requestedOutputCol x =
      let place := extrapolatedX x (table.knot 0) (table.knot (table.data.length - 1)) table.extrapolation
      segmentResult table col place.1 place.2.1 place.2.2 (segment table place.1) := by
  obtain ⟨row, hrow, hwidth, hcolumn⟩ := h.column
  unfold evalTable1dLookup
  rw [hrow]
  simp only [pure_bind]
  rw [if_neg (not_lt.2 hwidth), hcolumn, h.bounds]
  simp only [pure_bind]
  rw [if_neg (by omega), if_neg hne]
  generalize extrapolatedX x (table.knot 0) (table.knot (table.data.length - 1)) table.extrapolation = place
  have hk := segment_le hn place.1
  obtain ⟨hx0, hy0⟩ := h.row (show segment table place.1 < table.data.length by omega)
  obtain ⟨hx1, hy1⟩ := h.row (show segment table place.1 + 1 < table.data.length by omega)
  obtain ⟨-, hlast⟩ := h.row (show table.data.length - 1 < table.data.length by omega)
  simp only [pure_bind, lookupSegmentIndex_eq h hmono hn, min_eq_left (show segment table place.1 + 1 ≤ table.data.length - 1 by omega),
    hx0, hy0, hx1, hy1, hlast, segmentResult]
  split_ifs <;> rfl

theorem lookup_single (h : table.Reads requestedOutputCol col) (hn : table.data.length = 1) (x : K) :
    evalTable1dLookup table requestedOutputCol x = pure ⟨table.output col 0, 0⟩ := by
  obtain ⟨row, hrow, hwidth, hcolumn⟩ := h.column
  obtain ⟨-, hy⟩ := h.row (show 0 < table.data.length by omega)
  unfold evalTable1dLookup
  rw [hrow]
  simp only [pure_bind]
  rw [if_neg (not_lt.2 hwidth), hcolumn, h.bounds]
  simp only [pure_bind]
  rw [if_pos hn, hy]
  rfl

theorem lookup_step (h : table.Reads requestedOutputCol col) (hn : 2 ≤ table.data.length)
    (heq : table.knot 0 = table.knot (table.data.length - 1)) (x : K) :
    evalTable1dLookup table requestedOutputCol x =
      pure ⟨table.output col (if x < table.knot 0 then 0 else table.data.length - 1), 0⟩ := by
  obtain ⟨row, hrow, hwidth, hcolumn⟩ := h.column
  have hread : (if x < table.knot 0 then 0 else table.data.length - 1) < table.data.length := by
    split_ifs <;> omega
  obtain ⟨-, hy⟩ := h.row hread
  unfold evalTable1dLookup
  rw [hrow]
  simp only [pure_bind]
  rw [if_neg (not_lt.2 hwidth), hcolumn, h.bounds]
  simp only [pure_bind]
  rw [if_neg (by omega), if_pos heq, hy]
  rfl

/-! ## Constant segments with held ends -/

variable [IsStrictOrderedRing K]

omit [FloorRing K] in
theorem epsilon_nonneg : (0 : K) ≤ epsilon := by
  unfold epsilon
  positivity

omit [FloorRing K] [IsStrictOrderedRing K] in
theorem segmentResult_inside (hsmooth : table.smoothness = 3) (xReal : K) (preserveSlope : Bool) (k : Nat) :
    segmentResult table col xReal false preserveSlope k =
      pure ⟨table.output col (if table.knot (table.data.length - 1) ≤ xReal then table.data.length - 1 else k), 0⟩ := by
  rw [segmentResult, if_pos ⟨hsmooth, rfl⟩]

omit [LinearOrder K] [FloorRing K] [IsStrictOrderedRing K] in
/-- A linear segment passes through its two rows. -/
theorem linear_end {x0 x1 y0 y1 : K} (h : x1 - x0 ≠ 0) : y0 + (x1 - x0) * ((y1 - y0) / (x1 - x0)) = y1 := by
  rw [mul_div_cancel₀ _ h, add_sub_cancel]

omit [FloorRing K] in
/-- Out of range, a segment gives the output of the row that the argument clamps to, but the first of two equal rows. -/
theorem segmentResult_outside (hasc : table.Ascends) (hsmooth : table.smoothness = 3) {k : Nat}
    (hk : k + 1 < table.data.length) {xReal : K} :
    (xReal = table.knot k → segmentResult table col xReal true false k = pure ⟨table.output col k, 0⟩) ∧
      (xReal = table.knot (k + 1) → segmentResult table col xReal true false k =
        pure ⟨table.output col (if table.knot k = table.knot (k + 1) then k else k + 1), 0⟩) := by
  have hsmooth3 : ¬(table.smoothness = 3 ∧ true = false) := fun h => Bool.noConfusion h.2
  have hsmooth2 : ¬(table.smoothness = 2 ∧ 3 ≤ table.data.length) := by omega
  have hclose : |table.knot (k + 1) - table.knot k| ≤ epsilon ↔ table.knot k = table.knot (k + 1) := by
    constructor
    · intro hle
      by_contra hne
      have hlt := (hasc.apart k (k + 1) (Nat.lt_succ_self k) hk hne).1
      exact absurd (lt_of_lt_of_le hlt (le_abs_self _)) (not_lt.2 hle)
    · intro heq
      rw [heq, sub_self, abs_zero]
      exact epsilon_nonneg
  unfold segmentResult
  rw [if_neg hsmooth3, if_neg hsmooth2]
  simp only [hclose, Bool.false_eq_true, if_false]
  constructor
  · rintro rfl
    split_ifs
    · rfl
    · rw [sub_self, zero_mul, add_zero]
  · rintro rfl
    split_ifs with heq
    · rfl
    · rw [linear_end (sub_ne_zero.2 (Ne.symm heq))]

omit [IsStrictOrderedRing K] in
theorem extrapolatedX_inside {x xMin xMax : K} (extrapolation : Int) (hlt : xMin < xMax) (hx : xMin ≤ x ∧ x ≤ xMax) :
    extrapolatedX x xMin xMax extrapolation = (x, false, true) := by
  rw [extrapolatedX, if_neg (not_lt.2 hlt.le), if_neg hlt.ne, if_pos hx]

omit [IsStrictOrderedRing K] in
theorem extrapolatedX_hold {x xMin xMax : K} {extrapolation : Int} (hhold : extrapolation ≠ 2 ∧ extrapolation ≠ 3)
    (hlt : xMin < xMax) (hx : ¬(xMin ≤ x ∧ x ≤ xMax)) :
    extrapolatedX x xMin xMax extrapolation = (max xMin (min x xMax), true, false) := by
  rw [extrapolatedX, if_neg (not_lt.2 hlt.le), if_neg hlt.ne, if_neg hx, if_neg hhold.1, if_neg hhold.2]

def readRow (table : ExternalTableData K) (x : K) : Nat :=
  if table.knot 0 < table.knot (table.data.length - 1) then
    if x = table.knot 0 then 0
    else if table.knot (table.data.length - 1) < x ∧
        table.knot (table.data.length - 2) = table.knot (table.data.length - 1) then table.data.length - 2
    else table.heldRow x
  else table.heldRow x

theorem lookup_hold (h : table.Reads requestedOutputCol col) (hasc : table.Ascends) (hsmooth : table.smoothness = 3)
    (hhold : table.extrapolation ≠ 2 ∧ table.extrapolation ≠ 3) (x : K) :
    evalTable1dLookup table requestedOutputCol x = pure ⟨table.output col (readRow table x), 0⟩ := by
  have hpos := h.length_pos
  rcases (hasc.mono 0 (table.data.length - 1) (Nat.zero_le _) (by omega)).lt_or_eq with hlt | heq
  · have hn : 2 ≤ table.data.length := by
      by_contra hsmall
      have hone : table.data.length - 1 = 0 := by omega
      rw [hone] at hlt
      exact lt_irrefl _ hlt
    rw [lookup_eq h hasc.mono hn hlt.ne, readRow, if_pos hlt]
    by_cases hx : table.knot 0 ≤ x ∧ x ≤ table.knot (table.data.length - 1)
    · rw [extrapolatedX_inside _ hlt hx]
      dsimp only
      rw [segmentResult_inside hsmooth, segment]
      rcases hx.1.lt_or_eq with hlow | rfl
      · rw [if_neg (not_le.2 hlow), if_neg hlow.ne']
        rcases hx.2.lt_or_eq with hhigh | rfl
        · rw [if_neg (not_le.2 hhigh), if_neg (not_le.2 hhigh), if_neg fun habove => absurd habove.1 hhigh.not_gt]
        · rw [if_pos (le_refl _), if_neg fun habove => absurd habove.1 (lt_irrefl _), heldRow_last hpos (le_refl _)]
      · rw [if_neg (not_le.2 hlt), if_pos (le_refl _), if_pos rfl]
    · rw [extrapolatedX_hold hhold hlt hx]
      dsimp only
      rcases lt_or_ge x (table.knot 0) with hbelow | habove
      · -- below the first abscissa the argument clamps to it
        have hclamp : max (table.knot 0) (min x (table.knot (table.data.length - 1))) = table.knot 0 :=
          max_eq_left ((min_le_left _ _).trans hbelow.le)
        have hsegment : segment table (table.knot 0) = 0 := if_pos (le_refl _)
        rw [hclamp, hsegment, if_neg hbelow.ne, if_neg fun hpast => absurd (hlt.trans hpast.1) hbelow.not_gt,
          heldRow_first hasc hbelow]
        exact (segmentResult_outside hasc hsmooth (show 0 + 1 < table.data.length by omega)).1 rfl
      · have hpast : table.knot (table.data.length - 1) < x := not_le.1 fun hle => hx ⟨habove, hle⟩
        have hclamp : max (table.knot 0) (min x (table.knot (table.data.length - 1))) =
            table.knot (table.data.length - 1) := by
          rw [min_eq_right hpast.le, max_eq_right hlt.le]
        have hsegment : segment table (table.knot (table.data.length - 1)) = table.data.length - 2 := by
          rw [segment, if_neg (not_le.2 hlt), if_pos (le_refl _)]
        have hnext : table.data.length - 2 + 1 = table.data.length - 1 := by omega
        have hvalue : table.knot (table.data.length - 1) = table.knot (table.data.length - 2 + 1) →
            segmentResult table col (table.knot (table.data.length - 1)) true false (table.data.length - 2) = _ :=
          (segmentResult_outside hasc hsmooth (by omega)).2
        rw [hnext] at hvalue
        rw [hclamp, hsegment, if_neg (hlt.trans hpast).ne', heldRow_last hpos hpast.le, hvalue rfl]
        simp only [hpast, true_and]
  · have hread : readRow table x = table.heldRow x := if_neg (not_lt.2 heq.ge)
    rw [hread]
    rcases Nat.lt_or_ge table.data.length 2 with hone | hn
    · have hlast : table.heldRow x = 0 := by
        have := heldRow_lt hpos x
        omega
      rw [lookup_single h (by omega), hlast]
    · rw [lookup_step h hn heq]
      split_ifs with hbelow
      · rw [heldRow_first hasc hbelow]
      · rw [heldRow_last hpos (heq ▸ not_lt.1 hbelow)]

/-- The value is the held row's output but at the first abscissa of several rows, and past the last abscissa of several rows. -/
theorem lookup_hold_exact (table : ExternalTableData K) (requestedOutputCol col : Nat)
    (h : table.Reads requestedOutputCol col) (hasc : table.Ascends) (hsmooth : table.smoothness = 3)
    (hhold : table.extrapolation ≠ 2 ∧ table.extrapolation ≠ 3) (x : K) :
    (∃ result, evalTable1dLookup table requestedOutputCol x = pure result ∧
        result.value = table.output col (table.heldRow x)) ↔
      ¬(table.knot 0 < table.knot (table.data.length - 1) ∧
        (x = table.knot 0 ∧ table.output col 0 ≠ table.output col (table.heldRow (table.knot 0)) ∨
          table.knot (table.data.length - 1) < x ∧
            table.knot (table.data.length - 2) = table.knot (table.data.length - 1) ∧
            table.output col (table.data.length - 2) ≠ table.output col (table.data.length - 1))) := by
  have hvalue := lookup_hold h hasc hsmooth hhold x
  have hiff : (∃ result, evalTable1dLookup table requestedOutputCol x = pure result ∧
      result.value = table.output col (table.heldRow x)) ↔
        table.output col (readRow table x) = table.output col (table.heldRow x) := by
    rw [hvalue]
    constructor
    · rintro ⟨result, hresult, heq⟩
      obtain rfl := Except.ok.inj hresult
      exact heq
    · exact fun heq => ⟨_, rfl, heq⟩
  rw [hiff, readRow]
  split_ifs with hlt hfirst hpast
  · subst hfirst
    simp [hlt, hlt.not_gt]
  · have hlast := heldRow_last h.length_pos hpast.1.le
    rw [hlast]
    simp [hlt, hfirst, hpast.1, hpast.2]
  · simp only [true_iff]
    rintro ⟨-, ⟨hx, -⟩ | ⟨habove, hsame, -⟩⟩
    · exact hfirst hx
    · exact hpast ⟨habove, hsame⟩
  · simp [hlt]

end

end

/-! ## Two tables -/

def firstStep : ExternalTableData Rat := ⟨1, [[0, 0], [0, 1], [1, 2]], [2], 3, 1⟩

def lastStep : ExternalTableData Rat := ⟨1, [[0, 0], [1, 1], [1, 2]], [2], 3, 1⟩

theorem firstStep_reads : firstStep.Reads 0 1 := ⟨⟨[0, 0], rfl, by decide, rfl⟩, by decide⟩

theorem firstStep_ascends : firstStep.Ascends := by
  refine ⟨fun i j hij hj => ?_, fun i j hij hj hne => ?_⟩
  · have hj' : j < 3 := hj
    interval_cases j <;> interval_cases i <;> decide +kernel
  · have hj' : j < 3 := hj
    interval_cases j <;> interval_cases i <;> first | exact absurd rfl hne | decide +kernel

/-- Inside the range the value is the held row's. -/
theorem firstStep_value : ∃ result, evalTable1dLookup firstStep 0 (1 / 2) = pure result ∧
    result.value = firstStep.output 1 (firstStep.heldRow (1 / 2)) :=
  (lookup_hold_exact firstStep 0 1 firstStep_reads firstStep_ascends rfl (by decide) (1 / 2)).2 (by decide +kernel)

/-- The second row holds at the first abscissa and the third past the last one; the first and the second are read. -/
theorem steps_read_early : firstStep.output 1 (firstStep.heldRow 0) = 1 ∧
    evalTable1dLookup firstStep 0 0 = pure ⟨0, 0⟩ ∧ lastStep.output 1 (lastStep.heldRow 2) = 2 ∧
    evalTable1dLookup lastStep 0 2 = pure ⟨1, 0⟩ :=
  ⟨by decide +kernel, by decide +kernel, by decide +kernel, by decide +kernel⟩

end Rumoca.Eval
