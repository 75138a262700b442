import Mathlib.Tactic.FieldSimp
import Mathlib.Tactic.LinearCombination
import Rumoca.Eval.TableLookup
import Rumoca.Lib.Slopes
/-!
# Values and slopes of a table

With linear or Akima smoothness every segment is a cubic through its two rows,
and the ends are lines. The value is continuous, and the slope is its
derivative wherever the pieces meet with one slope.
-/

namespace Rumoca.Eval

open Lib

variable {K : Type} [Field K] [LinearOrder K]

namespace ExternalTableData

def Spaced (table : ExternalTableData K) : Prop :=
  ∀ i, i + 1 < table.data.length → epsilon < table.knot (i + 1) - table.knot i

variable (table : ExternalTableData K) (col : Nat)

def akimaSlope (i : Nat) : K := akimaKnotSlope table.knot (table.output col) table.data.length i

/-- The coefficients of the cubic from row `k` to the next. -/
def segmentCoeffs (k : Nat) : K × K × K :=
  if table.smoothness = 2 ∧ 3 ≤ table.data.length then
    akimaIntervalCoeffs table.knot (table.output col) (table.akimaSlope col) k
  else (0, 0, (table.output col (k + 1) - table.output col k) / (table.knot (k + 1) - table.knot k))

/-- The cubic from row `k` to the next. -/
def segmentValue (k : Nat) : K → K :=
  cubic (table.knot k) (table.output col k) (table.segmentCoeffs col k).1 (table.segmentCoeffs col k).2.1
    (table.segmentCoeffs col k).2.2

def segmentSlope (k : Nat) : K → K :=
  cubicSlope (table.knot k) (table.segmentCoeffs col k).1 (table.segmentCoeffs col k).2.1 (table.segmentCoeffs col k).2.2

def firstSlope : K := if table.extrapolation = 2 then table.segmentSlope col 0 (table.knot 0) else 0

def lastSlope : K :=
  if table.extrapolation = 2 then
    table.segmentSlope col (table.data.length - 2) (table.knot (table.data.length - 1))
  else 0

/-- The line before the first row, the segments, and the line after the last row. -/
def piece (j : Nat) : K → K :=
  if j = 0 then cubic (table.knot 0) (table.output col 0) 0 0 (table.firstSlope col)
  else if j = table.data.length then
    cubic (table.knot (table.data.length - 1)) (table.output col (table.data.length - 1)) 0 0 (table.lastSlope col)
  else table.segmentValue col (j - 1)

def pieceSlope (j : Nat) : K → K :=
  if j = 0 then fun _ => table.firstSlope col
  else if j = table.data.length then fun _ => table.lastSlope col
  else table.segmentSlope col (j - 1)

def pieceOf (x : K) : Nat :=
  if x < table.knot 0 then 0
  else if table.knot (table.data.length - 1) < x then table.data.length
  else segment table x + 1

end ExternalTableData

open ExternalTableData

section
variable {table : ExternalTableData K} {requestedOutputCol col : Nat}

/-! ## Segments -/

theorem segmentValue_start (k : Nat) : table.segmentValue col k (table.knot k) = table.output col k := by
  rw [segmentValue, cubic, sub_self, mul_zero, add_zero]

theorem segmentSlope_start (k : Nat) : table.segmentSlope col k (table.knot k) = (table.segmentCoeffs col k).2.2 := by
  rw [segmentSlope, cubicSlope, sub_self, mul_zero, zero_add]

theorem segmentValue_end (table : ExternalTableData K) (col : Nat) {k : Nat} (h : table.knot (k + 1) - table.knot k ≠ 0) :
    table.segmentValue col k (table.knot (k + 1)) = table.output col (k + 1) := by
  rw [segmentValue, cubic, segmentCoeffs]
  split
  · simp only [akimaIntervalCoeffs]
    field_simp
    ring
  · dsimp only
    rw [zero_mul, zero_add, zero_mul, zero_add, div_mul_cancel₀ _ h, add_sub_cancel]

theorem segmentSlope_end (col : Nat) {k : Nat} (hakima : table.smoothness = 2 ∧ 3 ≤ table.data.length)
    (h : table.knot (k + 1) - table.knot k ≠ 0) :
    table.segmentSlope col k (table.knot (k + 1)) = (table.segmentCoeffs col (k + 1)).2.2 := by
  rw [segmentSlope, cubicSlope, segmentCoeffs, segmentCoeffs, if_pos hakima, if_pos hakima]
  simp only [akimaIntervalCoeffs]
  field_simp
  ring

end

section
variable [IsStrictOrderedRing K] {table : ExternalTableData K} {requestedOutputCol col : Nat}

namespace ExternalTableData.Spaced

theorem lt (h : table.Spaced) {i : Nat} (hi : i + 1 < table.data.length) : table.knot i < table.knot (i + 1) :=
  sub_pos.1 (epsilon_nonneg.trans_lt (h i hi))

theorem strict (h : table.Spaced) {i j : Nat} (hij : i < j) (hj : j < table.data.length) :
    table.knot i < table.knot j := by
  induction j with
  | zero => omega
  | succ j ih =>
    rcases Nat.lt_or_eq_of_le (Nat.le_of_lt_succ hij) with hlt | rfl
    · exact (ih hlt (by omega)).trans (h.lt hj)
    · exact h.lt hj

theorem ascend (h : table.Spaced) : table.KnotsAscend := by
  intro i j hij hj
  rcases Nat.lt_or_eq_of_le hij with hlt | rfl
  · exact (h.strict hlt hj).le
  · exact le_rfl

theorem segment_eq (h : table.Spaced) {x : K} {k : Nat} (hk : k + 1 < table.data.length) (hlow : table.knot k ≤ x)
    (hhigh : x < table.knot (k + 1)) : segment table x = k := by
  have hheld : table.heldRow x = k :=
    heldRow_eq (by omega) hlow fun j hj hlast => hhigh.trans_le (h.ascend (k + 1) j hj hlast)
  have hlast : x < table.knot (table.data.length - 1) := hhigh.trans_le (h.ascend _ _ (by omega) (by omega))
  unfold segment
  rw [if_neg (not_le.2 hlast), hheld]
  split
  · next hfirst =>
    -- Only the first segment reaches down to the first knot.
    by_contra hne
    exact absurd (hlow.trans hfirst) (not_le.2 (h.strict (Nat.pos_of_ne_zero (Ne.symm hne)) (by omega)))
  · rfl

theorem segment_last (h : table.Spaced) (hn : 2 ≤ table.data.length) :
    segment table (table.knot (table.data.length - 1)) = table.data.length - 2 := by
  unfold segment
  rw [if_neg (not_le.2 (h.strict (show 0 < table.data.length - 1 by omega) (by omega))), if_pos le_rfl]

end ExternalTableData.Spaced

/-! ## Pieces -/

theorem hasSlopeAt_piece (table : ExternalTableData K) (col j : Nat) (x : K) :
    HasSlopeAt (table.piece col j) (table.pieceSlope col j x) x := by
  have hline : ∀ x0 y0 c2 : K, HasSlopeAt (cubic x0 y0 0 0 c2) c2 x := by
    intro x0 y0 c2
    have h := hasSlopeAt_cubic x0 y0 0 0 c2 x
    rwa [cubicSlope, mul_zero, mul_zero, zero_mul, zero_add, zero_mul, zero_add] at h
  unfold piece pieceSlope
  split
  · exact hline _ _ _
  · split
    · exact hline _ _ _
    · exact hasSlopeAt_cubic _ _ _ _ _ x

variable (h : table.Spaced) (hn : 2 ≤ table.data.length)
include h hn

theorem pieceOf_inside {x : K} {j : Nat} (hj : j ≤ table.data.length)
    (hx : Inside table.data.length table.knot j x) : table.pieceOf x = j := by
  unfold pieceOf
  rcases Nat.eq_zero_or_pos j with rfl | hpos
  · exact if_pos (hx.2 (by omega))
  · have hlow : table.knot (j - 1) < x := hx.1 (by omega)
    rw [if_neg (not_lt.2 ((h.ascend 0 (j - 1) (Nat.zero_le _) (by omega)).trans hlow.le))]
    rcases Nat.lt_or_eq_of_le hj with hlt | rfl
    · have hhigh : x < table.knot j := hx.2 (by omega)
      rw [if_neg (not_lt.2 (hhigh.le.trans (h.ascend j _ (by omega) (by omega))))]
      have hnext : j - 1 + 1 = j := by omega
      rw [h.segment_eq (k := j - 1) (by omega) hlow.le (by rwa [hnext]), hnext]
    · exact if_pos hlow

theorem pieceOf_knot {i : Nat} (hi : i < table.data.length) :
    table.pieceOf (table.knot i) = if i + 1 = table.data.length then i else i + 1 := by
  unfold pieceOf
  rw [if_neg (not_lt.2 (h.ascend 0 i (Nat.zero_le _) hi)), if_neg (not_lt.2 (h.ascend i _ (by omega) (by omega)))]
  split
  · next hlast =>
    obtain rfl : i = table.data.length - 1 := by omega
    rw [h.segment_last hn]
    omega
  · rw [h.segment_eq (by omega) le_rfl (h.lt (by omega))]

omit hn in
theorem piece_knot (col : Nat) {i : Nat} (hi : i < table.data.length) :
    table.piece col i (table.knot i) = table.output col i ∧ table.piece col (i + 1) (table.knot i) = table.output col i := by
  constructor
  · unfold piece
    split
    · next hzero =>
      rw [hzero, cubic, sub_self, mul_zero, add_zero]
    · next hne =>
      rw [if_neg (by omega)]
      have hnext : i - 1 + 1 = i := by omega
      have hgap := h.lt (i := i - 1) (by omega)
      rw [hnext] at hgap
      have hend := segmentValue_end table col (k := i - 1) (by
        rw [hnext]
        exact (sub_pos.2 hgap).ne')
      rwa [hnext] at hend
  · unfold piece
    rw [if_neg (by omega)]
    split
    · next hlast =>
      rw [← hlast, Nat.add_sub_cancel, cubic, sub_self, mul_zero, add_zero]
    · exact segmentValue_start i

theorem piece_pieceOf_knot {i : Nat} (hi : i < table.data.length) :
    table.piece col (table.pieceOf (table.knot i)) (table.knot i) = table.output col i := by
  rw [pieceOf_knot h hn hi]
  split
  · exact (piece_knot h col hi).1
  · exact (piece_knot h col hi).2

theorem pieces_pieceOf (col : Nat) : Pieces (fun x => table.piece col (table.pieceOf x) x) table.data.length table.knot
    (table.piece col) where
  increasing := fun i hi => h.lt hi
  eq := by
    intro j hj x hlow hhigh
    by_cases hfirst : j ≠ 0 ∧ x = table.knot (j - 1)
    · obtain ⟨hne, rfl⟩ := hfirst
      have hpiece := (piece_knot h col (show j - 1 < table.data.length by omega)).2
      rw [show j - 1 + 1 = j by omega] at hpiece
      rw [piece_pieceOf_knot h hn (by omega), hpiece]
    · by_cases hlast : j ≠ table.data.length ∧ x = table.knot j
      · obtain ⟨hne, rfl⟩ := hlast
        have hlt : j < table.data.length := by omega
        rw [piece_pieceOf_knot h hn hlt, (piece_knot h col hlt).1]
      · rw [pieceOf_inside h hn hj ⟨fun hne => ?_, fun hne => ?_⟩]
        · exact lt_of_le_of_ne (hlow hne) fun heq => hfirst ⟨hne, heq.symm⟩
        · exact lt_of_le_of_ne (hhigh hne) fun heq => hlast ⟨hne, heq⟩

/-- The slopes of the two pieces at a knot agree when the ends keep their slope and the smoothness is Akima's. -/
theorem pieceSlope_knot (col : Nat) (hsmooth : table.smoothness = 2) (hextra : table.extrapolation = 2) {i : Nat}
    (hi : i < table.data.length) :
    table.pieceSlope col i (table.knot i) = table.pieceSlope col (table.pieceOf (table.knot i)) (table.knot i) ∧
      table.pieceSlope col (i + 1) (table.knot i) =
        table.pieceSlope col (table.pieceOf (table.knot i)) (table.knot i) := by
  have hsame : table.pieceSlope col i (table.knot i) = table.pieceSlope col (i + 1) (table.knot i) := by
    rcases Nat.eq_zero_or_pos i with rfl | hpos
    · rw [pieceSlope, if_pos rfl, pieceSlope, if_neg (by omega), if_neg (by omega), firstSlope, if_pos hextra]
    · rw [pieceSlope, if_neg (by omega), if_neg (by omega), pieceSlope, if_neg (by omega)]
      split
      · next hlast =>
        rw [lastSlope, if_pos hextra, show table.data.length - 2 = i - 1 by omega,
          show table.data.length - 1 = i by omega]
      · have hnext : i - 1 + 1 = i := by omega
        have hgap := h.lt (i := i - 1) (by omega)
        rw [hnext] at hgap
        have hend := segmentSlope_end col (k := i - 1) ⟨hsmooth, by omega⟩ (by
          rw [hnext]
          exact (sub_pos.2 hgap).ne')
        rw [hnext] at hend
        rw [hend, Nat.add_sub_cancel, segmentSlope_start]
  rw [pieceOf_knot h hn hi]
  split
  · exact ⟨rfl, hsame.symm⟩
  · exact ⟨hsame, rfl⟩

end

/-! ## Lookups -/

section
variable {table : ExternalTableData K} {requestedOutputCol col : Nat}

omit [LinearOrder K] in
theorem mapM_rows (h : table.Reads requestedOutputCol col) {rows : List Nat} (hrows : ∀ row ∈ rows, row < table.data.length) :
    rows.mapM (fun row => do
      let x ← tableRowX table row
      let y ← tableRowValue table row col
      return (x, y)) = (pure (rows.map fun row => (table.knot row, table.output col row)) :
        Except (TableRuntimeError K) (List (K × K))) := by
  induction rows with
  | nil => rfl
  | cons row rows ih =>
    obtain ⟨hrow, hrest⟩ := List.forall_mem_cons.1 hrows
    rw [List.mapM_cons, (h.row hrow).1, (h.row hrow).2, ih hrest]
    rfl

theorem evalAkima1d_eq (h : table.Reads requestedOutputCol col) (x : K) (k : Nat) (outOfRange preserveSlope : Bool) :
    evalAkima1d table col x k outOfRange preserveSlope =
      let slopes := table.akimaSlope col
      let last := table.data.length - 2
      let coeffs := akimaIntervalCoeffs table.knot (table.output col) slopes
      if outOfRange && preserveSlope then
        if x < table.knot 0 then
          pure ⟨table.output col 0 + (coeffs 0).2.2 * (x - table.knot 0), (coeffs 0).2.2⟩
        else
          let v := table.knot (table.data.length - 1) - table.knot last
          let slope := (3 * (coeffs last).1 * v + 2 * (coeffs last).2.1) * v + (coeffs last).2.2
          pure ⟨table.output col (table.data.length - 1) + slope * (x - table.knot (table.data.length - 1)), slope⟩
      else
        let v := x - table.knot k
        pure ⟨table.output col k + (((coeffs k).1 * v + (coeffs k).2.1) * v + (coeffs k).2.2) * v,
          if preserveSlope then (3 * (coeffs k).1 * v + 2 * (coeffs k).2.1) * v + (coeffs k).2.2 else 0⟩ := by
  have hrow : ∀ i, ((List.range table.data.length).map fun row => (table.knot row, table.output col row)).getD i (0, 0) =
      (table.knot i, table.output col i) := by
    intro i
    rw [List.getD_eq_getElem?_getD, List.getElem?_map]
    by_cases hi : i < table.data.length
    · rw [List.getElem?_range hi]
      rfl
    · have hnone : table.data[i]? = none := List.getElem?_eq_none (not_lt.1 hi)
      rw [List.getElem?_eq_none (by rw [List.length_range]; exact not_lt.1 hi), knot, output, hnone]
      rfl
  simp only [evalAkima1d]
  rw [mapM_rows h fun row => List.mem_range.1, pure_bind]
  simp only [hrow]
  split_ifs <;> rfl

theorem segmentResult_cubic (h : table.Reads requestedOutputCol col) (hspaced : table.Spaced) (hsmooth : table.smoothness ≠ 3)
    {k : Nat} (hk : k + 1 < table.data.length) (x : K) (outOfRange preserveSlope : Bool)
    (hplace : (outOfRange && preserveSlope) = false) :
    segmentResult table col x outOfRange preserveSlope k =
      pure ⟨table.segmentValue col k x, if preserveSlope then table.segmentSlope col k x else 0⟩ := by
  have hwide : ¬|table.knot (k + 1) - table.knot k| ≤ epsilon :=
    not_le.2 ((hspaced k hk).trans_le (le_abs_self _))
  rw [segmentResult, if_neg fun hall => hsmooth hall.1, if_neg hwide, segmentValue, segmentSlope, segmentCoeffs]
  split
  · rw [evalAkima1d_eq h]
    dsimp only
    rw [if_neg (by rw [hplace]; decide)]
    rfl
  · dsimp only
    rw [cubic, cubicSlope, zero_mul, zero_add, zero_mul, zero_add, mul_zero, zero_mul, mul_zero, zero_add, zero_mul,
      zero_add, mul_comm (_ / _)]

omit [LinearOrder K] in
theorem cubic_line (x0 y0 c2 x : K) : cubic x0 y0 0 0 c2 x = y0 + c2 * (x - x0) := by
  rw [cubic, zero_mul, zero_add, zero_mul, zero_add]

theorem piece_first (x : K) : table.piece col 0 x = table.output col 0 + table.firstSlope col * (x - table.knot 0) ∧
    table.pieceSlope col 0 x = table.firstSlope col := by
  rw [piece, if_pos rfl, cubic_line, pieceSlope, if_pos rfl]
  exact ⟨rfl, rfl⟩

theorem piece_last (hpos : table.data.length ≠ 0) (x : K) : table.piece col table.data.length x =
      table.output col (table.data.length - 1) + table.lastSlope col * (x - table.knot (table.data.length - 1)) ∧
    table.pieceSlope col table.data.length x = table.lastSlope col := by
  rw [piece, if_neg hpos, if_pos rfl, cubic_line, pieceSlope, if_neg hpos, if_pos rfl]
  exact ⟨rfl, rfl⟩

theorem piece_of_mem {x : K} (hn : 2 ≤ table.data.length)
    (hx : table.knot 0 ≤ x ∧ x ≤ table.knot (table.data.length - 1)) :
    table.piece col (table.pieceOf x) = table.segmentValue col (segment table x) ∧
      table.pieceSlope col (table.pieceOf x) = table.segmentSlope col (segment table x) := by
  have hsegment := segment_le hn x
  rw [pieceOf, if_neg (not_lt.2 hx.1), if_neg (not_lt.2 hx.2), piece, if_neg (by omega), if_neg (by omega), pieceSlope,
    if_neg (by omega), if_neg (by omega), Nat.add_sub_cancel]
  exact ⟨rfl, rfl⟩

variable [IsStrictOrderedRing K]

theorem segmentResult_tangent (h : table.Reads requestedOutputCol col) (hspaced : table.Spaced) (hsmooth : table.smoothness ≠ 3)
    (hn : 2 ≤ table.data.length) (hextra : table.extrapolation = 2) (x : K) :
    (x < table.knot 0 → segmentResult table col x true true 0 =
        pure ⟨table.piece col 0 x, table.pieceSlope col 0 x⟩) ∧
      (table.knot (table.data.length - 1) < x → segmentResult table col x true true (table.data.length - 2) =
        pure ⟨table.piece col table.data.length x, table.pieceSlope col table.data.length x⟩) := by
  have hwide : ∀ k, k + 1 < table.data.length → ¬|table.knot (k + 1) - table.knot k| ≤ epsilon := fun k hk =>
    not_le.2 ((hspaced k hk).trans_le (le_abs_self _))
  have hnext : table.data.length - 2 + 1 = table.data.length - 1 := by omega
  constructor
  · intro hx
    rw [(piece_first x).1, (piece_first x).2, firstSlope, if_pos hextra, segmentSlope_start, segmentCoeffs, segmentResult,
      if_neg fun hall => hsmooth hall.1, if_neg (hwide 0 (by omega))]
    by_cases hakima : table.smoothness = 2 ∧ 3 ≤ table.data.length
    · rw [if_pos hakima, if_pos hakima, evalAkima1d_eq h]
      simp only [Bool.and_self, if_true, if_pos hx]
    · rw [if_neg hakima, if_neg hakima, mul_comm]
      rfl
  · intro hx
    have hfirst : ¬x < table.knot 0 :=
      not_lt.2 ((hspaced.ascend 0 (table.data.length - 1) (Nat.zero_le _) (by omega)).trans hx.le)
    have hpos : table.data.length ≠ 0 := by omega
    rw [(piece_last hpos x).1, (piece_last hpos x).2, lastSlope, if_pos hextra, segmentSlope, segmentCoeffs, segmentResult,
      if_neg fun hall => hsmooth hall.1, if_neg (hwide _ (by omega))]
    by_cases hakima : table.smoothness = 2 ∧ 3 ≤ table.data.length
    · rw [if_pos hakima, if_pos hakima, evalAkima1d_eq h]
      simp only [Bool.and_self, if_true, if_neg hfirst]
      rfl
    · -- The line of the last segment, from its other end.
      have hgap := hspaced.lt (i := table.data.length - 2) (by omega)
      have hend := segmentValue_end table col (sub_pos.2 hgap).ne'
      rw [segmentValue, segmentCoeffs, if_neg hakima, cubic_line, hnext] at hend
      rw [if_neg hakima, if_neg hakima, cubicSlope, hnext, mul_zero, mul_zero, zero_mul, zero_add, zero_mul, zero_add]
      dsimp only at hend ⊢
      refine congrArg pure (congrArg₂ TableLookupResult.mk ?_ rfl)
      linear_combination hend

end

/-! ## Repeating tables -/

section
variable [FloorRing K] [IsStrictOrderedRing K] {x xMin xMax : K}

theorem extrapolatedX_wrap (hlt : xMin < xMax) (hx : ¬(xMin ≤ x ∧ x ≤ xMax)) :
    extrapolatedX x xMin xMax 3 = (x - ⌊(x - xMin) / (xMax - xMin)⌋ * (xMax - xMin), false, true) := by
  have hspan : 0 < xMax - xMin := sub_pos.2 hlt
  rw [extrapolatedX, if_neg (not_lt.2 hlt.le), if_neg hlt.ne, if_neg hx, if_neg (by decide), if_pos rfl, if_pos hspan]
  refine congrArg (·, false, true) ?_
  rw [remainder, truncate]
  have hq : (x - xMin) / (xMax - xMin) * (xMax - xMin) = x - xMin := div_mul_cancel₀ _ hspan.ne'
  generalize (x - xMin) / (xMax - xMin) = q at hq ⊢
  by_cases hpos : 0 ≤ q
  · have hnonneg : ¬x - xMin - ⌊q⌋ * (xMax - xMin) < 0 := by
      rw [← hq, ← sub_mul, not_lt]
      exact mul_nonneg (sub_nonneg.2 (Int.floor_le q)) hspan.le
    rw [if_pos hpos, if_neg hnonneg]
    ring
  · rw [if_neg hpos]
    have hremainder : x - xMin - ⌈q⌉ * (xMax - xMin) = (q - ⌈q⌉) * (xMax - xMin) := by rw [sub_mul, hq]
    rcases (Int.le_ceil q).lt_or_eq with hceil | hceil
    · -- Between integers the ceiling is one above the floor.
      have hneg : x - xMin - ⌈q⌉ * (xMax - xMin) < 0 := by
        rw [hremainder]
        exact mul_neg_of_neg_of_pos (sub_neg.2 hceil) hspan
      have hfloor : ⌊q⌋ = ⌈q⌉ - 1 := by
        refine Int.floor_eq_iff.2 ⟨?_, ?_⟩
        · push_cast
          linarith [Int.ceil_lt_add_one q]
        · push_cast
          linarith
      rw [if_pos hneg, hfloor]
      push_cast
      ring
    · have hzero : ¬x - xMin - ⌈q⌉ * (xMax - xMin) < 0 := by
        rw [hremainder, ← hceil, sub_self, zero_mul]
        exact lt_irrefl 0
      have hfloor : ⌊q⌋ = ⌈q⌉ := Int.floor_eq_iff.2 ⟨hceil.ge, by linarith⟩
      rw [if_neg hzero, hfloor]
      ring

theorem wrap_mem (hlt : xMin < xMax) (x : K) :
    xMin ≤ x - ⌊(x - xMin) / (xMax - xMin)⌋ * (xMax - xMin) ∧
      x - ⌊(x - xMin) / (xMax - xMin)⌋ * (xMax - xMin) < xMax := by
  have hspan : 0 < xMax - xMin := sub_pos.2 hlt
  have hlow := (le_div_iff₀ hspan).1 (Int.floor_le ((x - xMin) / (xMax - xMin)))
  have hhigh := (div_lt_iff₀ hspan).1 (Int.lt_floor_add_one ((x - xMin) / (xMax - xMin)))
  constructor
  · linarith
  · linarith

def ExternalTableData.brought (table : ExternalTableData K) (x : K) : K :=
  if table.extrapolation = 3 then (extrapolatedX x (table.knot 0) (table.knot (table.data.length - 1)) 3).1 else x

def ExternalTableData.valueAt (table : ExternalTableData K) (col : Nat) (x : K) : K :=
  table.piece col (table.pieceOf (table.brought x)) (table.brought x)

def ExternalTableData.slopeAt (table : ExternalTableData K) (col : Nat) (x : K) : K :=
  table.pieceSlope col (table.pieceOf (table.brought x)) (table.brought x)

variable {table : ExternalTableData K} {requestedOutputCol col : Nat}

theorem lookup_pieces (h : table.Reads requestedOutputCol col) (hspaced : table.Spaced) (hsmooth : table.smoothness ≠ 3)
    (hn : 2 ≤ table.data.length) (x : K) :
    evalTable1dLookup table requestedOutputCol x = pure ⟨table.valueAt col x, table.slopeAt col x⟩ := by
  have hlt : table.knot 0 < table.knot (table.data.length - 1) := hspaced.strict (by omega) (by omega)
  have hcubic := fun y oor keep => segmentResult_cubic h hspaced hsmooth (k := segment table y)
    (by have := segment_le hn y; omega) y oor keep
  rw [lookup_eq h hspaced.ascend hn hlt.ne]
  by_cases hx : table.knot 0 ≤ x ∧ x ≤ table.knot (table.data.length - 1)
  · have hbrought : table.brought x = x := by
      unfold brought
      rw [extrapolatedX_inside _ hlt hx, ite_self]
    rw [extrapolatedX_inside _ hlt hx]
    dsimp only
    rw [hcubic x false true rfl, ExternalTableData.valueAt, slopeAt, hbrought, (piece_of_mem hn hx).1,
      (piece_of_mem hn hx).2]
    rfl
  · by_cases hperiodic : table.extrapolation = 3
    · have hwrap := extrapolatedX_wrap hlt hx
      have hmem := wrap_mem hlt x
      have hbrought : table.brought x = _ := (if_pos hperiodic).trans (congrArg Prod.fst hwrap)
      rw [ExternalTableData.valueAt, slopeAt, hbrought, hperiodic, hwrap]
      dsimp only
      rw [hcubic _ false true rfl, (piece_of_mem hn ⟨hmem.1, hmem.2.le⟩).1,
        (piece_of_mem hn ⟨hmem.1, hmem.2.le⟩).2]
      rfl
    · have hbrought : table.brought x = x := if_neg hperiodic
      have hpos : table.data.length ≠ 0 := by omega
      rw [ExternalTableData.valueAt, slopeAt, hbrought, pieceOf]
      rcases not_and_or.1 hx with hbelow | habove
      · rw [not_le] at hbelow
        rw [if_pos hbelow]
        by_cases hextra : table.extrapolation = 2
        · have hplace : extrapolatedX x (table.knot 0) (table.knot (table.data.length - 1)) table.extrapolation = (x, true, true) := by
            rw [extrapolatedX, if_neg (not_lt.2 hlt.le), if_neg hlt.ne, if_neg hx, if_pos hextra]
          rw [hplace]
          dsimp only
          rw [segment, if_pos hbelow.le]
          exact (segmentResult_tangent h hspaced hsmooth hn hextra x).1 hbelow
        · have hclamp : max (table.knot 0) (min x (table.knot (table.data.length - 1))) = table.knot 0 :=
            max_eq_left ((min_le_left _ _).trans hbelow.le)
          rw [extrapolatedX_hold ⟨hextra, hperiodic⟩ hlt hx, hclamp, hcubic _ true false rfl, segment, if_pos le_rfl,
            segmentValue_start, (piece_first x).1, (piece_first x).2, firstSlope, if_neg hextra, zero_mul, add_zero]
          rfl
      · rw [not_le] at habove
        rw [if_neg (hlt.trans habove).not_gt, if_pos habove]
        have hnext : table.data.length - 2 + 1 = table.data.length - 1 := by omega
        by_cases hextra : table.extrapolation = 2
        · have hplace : extrapolatedX x (table.knot 0) (table.knot (table.data.length - 1)) table.extrapolation = (x, true, true) := by
            rw [extrapolatedX, if_neg (not_lt.2 hlt.le), if_neg hlt.ne, if_neg hx, if_pos hextra]
          rw [hplace]
          dsimp only
          rw [segment, if_neg (not_le.2 (hlt.trans habove)), if_pos habove.le]
          exact (segmentResult_tangent h hspaced hsmooth hn hextra x).2 habove
        · have hclamp : max (table.knot 0) (min x (table.knot (table.data.length - 1))) =
              table.knot (table.data.length - 1) := by
            rw [min_eq_right habove.le, max_eq_right hlt.le]
          have hgap := hspaced.lt (i := table.data.length - 2) (by omega)
          have hend := segmentValue_end table col (sub_pos.2 hgap).ne'
          rw [hnext] at hend
          rw [extrapolatedX_hold ⟨hextra, hperiodic⟩ hlt hx, hclamp, hcubic _ true false rfl, hspaced.segment_last hn, hend,
            (piece_last hpos x).1, (piece_last hpos x).2, lastSlope, if_neg hextra, zero_mul, add_zero]
          rfl

/-! ## The slope is the derivative -/

def ExternalTableData.KnotAt (table : ExternalTableData K) (x : K) : Prop :=
  ∃ i < table.data.length, x = table.knot i ∨ table.extrapolation = 3 ∧
    ∃ cycle : Int, x = table.knot i + cycle * (table.knot (table.data.length - 1) - table.knot 0)

theorem brought_of_mem (hspaced : table.Spaced) (hn : 2 ≤ table.data.length)
    (hx : table.knot 0 ≤ x ∧ x ≤ table.knot (table.data.length - 1)) : table.brought x = x := by
  have hlt : table.knot 0 < table.knot (table.data.length - 1) := hspaced.strict (by omega) (by omega)
  unfold brought
  rw [extrapolatedX_inside _ hlt hx, ite_self]

theorem brought_cycle (hspaced : table.Spaced) (hn : 2 ≤ table.data.length) (hperiodic : table.extrapolation = 3)
    {cycle : Int} {span : K} (hspan : span = table.knot (table.data.length - 1) - table.knot 0)
    (hlow : table.knot 0 + cycle * span < x) (hhigh : x < table.knot 0 + (cycle + 1) * span) :
    table.brought x = x - cycle * span := by
  have hlt : table.knot 0 < table.knot (table.data.length - 1) := hspaced.strict (by omega) (by omega)
  have hpos : 0 < span := hspan ▸ sub_pos.2 hlt
  by_cases hx : table.knot 0 ≤ x ∧ x ≤ table.knot (table.data.length - 1)
  · -- Only the table itself lies in its range.
    have hle : cycle < 1 := by
      have : (cycle : K) * span < 1 * span := by linarith [hx.2]
      exact_mod_cast lt_of_mul_lt_mul_right this hpos.le
    have hge : -1 < cycle := by
      have : (-1 : K) * span < cycle * span := by linarith [hx.1]
      exact_mod_cast lt_of_mul_lt_mul_right this hpos.le
    obtain rfl : cycle = 0 := by omega
    rw [brought_of_mem hspaced hn hx, Int.cast_zero, zero_mul, sub_zero]
  · have hfloor : ⌊(x - table.knot 0) / span⌋ = cycle := by
      refine Int.floor_eq_iff.2 ⟨(le_div_iff₀ hpos).2 (by linarith), (div_lt_iff₀ hpos).2 (by linarith)⟩
    rw [brought, if_pos hperiodic, extrapolatedX_wrap hlt hx, ← hspan, hfloor]

theorem hasSlopeAt_of_not_knotAt (hspaced : table.Spaced) (hn : 2 ≤ table.data.length) (hx : ¬table.KnotAt x) :
    HasSlopeAt (table.valueAt col) (table.slopeAt col x) x := by
  have hpieces := pieces_pieceOf hspaced hn col
  have hinside : ∀ y, (∀ i < table.data.length, y ≠ table.knot i) →
      HasSlopeAt (fun x => table.piece col (table.pieceOf x) x) (table.pieceSlope col (table.pieceOf y) y) y := by
    intro y hy
    rcases inside_or_knot table.data.length table.knot y with ⟨j, hj, hin⟩ | ⟨i, hi, heq⟩
    · rw [pieceOf_inside hspaced hn hj hin]
      exact hpieces.hasSlopeAt_inside hj hin (hasSlopeAt_piece table col j y)
    · exact absurd heq (hy i hi)
  by_cases hperiodic : table.extrapolation = 3
  · obtain ⟨span, hspan⟩ : ∃ span, span = table.knot (table.data.length - 1) - table.knot 0 := ⟨_, rfl⟩
    have hlt : table.knot 0 < table.knot (table.data.length - 1) := hspaced.strict (by omega) (by omega)
    have hmem := wrap_mem hlt x
    rw [← hspan] at hmem
    obtain ⟨cycle, hcycle⟩ : ∃ cycle, cycle = ⌊(x - table.knot 0) / span⌋ := ⟨_, rfl⟩
    rw [← hcycle] at hmem
    have hne : ∀ i < table.data.length, x - cycle * span ≠ table.knot i := fun i hi heq =>
      hx ⟨i, hi, .inr ⟨hperiodic, cycle, by rw [← heq, ← hspan, sub_add_cancel]⟩⟩
    have hlow : table.knot 0 + cycle * span < x := by
      have := lt_of_le_of_ne hmem.1 (hne 0 (by omega)).symm
      linarith
    have hhigh : x < table.knot 0 + (cycle + 1) * span := by
      have := hmem.2
      linarith
    have hbrought : ∀ y, table.knot 0 + cycle * span < y → y < table.knot 0 + (cycle + 1) * span →
        table.brought y = y - cycle * span := fun y => brought_cycle hspaced hn hperiodic hspan
    rw [slopeAt, hbrought x hlow hhigh]
    refine HasSlopeWithin.congr (hinside _ hne).shift (lt_min (sub_pos.2 hlow) (sub_pos.2 hhigh)) ?_ fun y _ hnear => ?_
    · rw [ExternalTableData.valueAt, hbrought x hlow hhigh]
    · rw [abs_lt] at hnear
      have h1 := min_le_left (x - (table.knot 0 + cycle * span)) (table.knot 0 + (cycle + 1) * span - x)
      have h2 := min_le_right (x - (table.knot 0 + cycle * span)) (table.knot 0 + (cycle + 1) * span - x)
      rw [ExternalTableData.valueAt, hbrought y (by linarith [hnear.1]) (by linarith [hnear.2])]
  · have hbrought : ∀ y, table.brought y = y := fun y => if_neg hperiodic
    have hvalue : table.valueAt col = fun x => table.piece col (table.pieceOf x) x := by
      funext y
      rw [ExternalTableData.valueAt, hbrought]
    rw [hvalue, slopeAt, hbrought]
    exact hinside x fun i hi heq => hx ⟨i, hi, .inl heq⟩

/-- A lookup reads the rows at the knots, continuously, and its slope is the derivative of its value. -/
theorem lookup_slopes (table : ExternalTableData K) (requestedOutputCol col : Nat)
    (h : table.Reads requestedOutputCol col) (hn : 2 ≤ table.data.length) (hspaced : table.Spaced)
    (hsmooth : table.smoothness ≠ 3) :
    ∃ value slope : K → K, (∀ x, evalTable1dLookup table requestedOutputCol x = pure ⟨value x, slope x⟩) ∧
      (∀ i < table.data.length, value (table.knot i) = table.output col i) ∧
      (table.extrapolation ≠ 3 → ∀ x, IsContinuousAt value x) ∧
      (∀ x, ¬table.KnotAt x → HasSlopeAt value (slope x) x) ∧
      (table.smoothness = 2 → table.extrapolation = 2 → ∀ x, HasSlopeAt value (slope x) x) ∧
      (table.extrapolation ≠ 2 → table.extrapolation ≠ 3 →
        ∀ x, x < table.knot 0 ∨ table.knot (table.data.length - 1) < x → slope x = 0) := by
  have hpieces := pieces_pieceOf hspaced hn col
  have hvalue : table.extrapolation ≠ 3 → table.valueAt col = fun x => table.piece col (table.pieceOf x) x := by
    intro hperiodic
    funext y
    rw [ExternalTableData.valueAt, show table.brought y = y from if_neg hperiodic]
  refine ⟨table.valueAt col, table.slopeAt col, lookup_pieces h hspaced hsmooth hn, fun i hi => ?_, fun hperiodic x => ?_,
    fun x hx => hasSlopeAt_of_not_knotAt hspaced hn hx, fun hakima hextra x => ?_, fun hextra hperiodic x hx => ?_⟩
  · rw [ExternalTableData.valueAt,
      brought_of_mem hspaced hn ⟨hspaced.ascend 0 i (Nat.zero_le _) hi, hspaced.ascend i _ (by omega) (by omega)⟩]
    exact piece_pieceOf_knot hspaced hn hi
  · rw [hvalue hperiodic]
    exact hpieces.continuous (table.pieceSlope col) (fun j _ => hasSlopeAt_piece table col j) x
  · have hperiodic : table.extrapolation ≠ 3 := by omega
    by_cases hknot : table.KnotAt x
    · obtain ⟨i, hi, rfl | ⟨hthree, -⟩⟩ := hknot
      · have hslopes := pieceSlope_knot hspaced hn col hakima hextra hi
        rw [hvalue hperiodic, slopeAt, show table.brought (table.knot i) = table.knot i from if_neg hperiodic]
        refine hpieces.hasSlopeAt_knot hi ?_ ?_
        · rw [← hslopes.1]
          exact hasSlopeAt_piece table col i _
        · rw [← hslopes.2]
          exact hasSlopeAt_piece table col (i + 1) _
      · exact absurd hthree hperiodic
    · exact hasSlopeAt_of_not_knotAt hspaced hn hknot
  · rw [slopeAt, show table.brought x = x from if_neg hperiodic, pieceOf]
    rcases hx with hbelow | habove
    · rw [if_pos hbelow, (piece_first x).2, firstSlope, if_neg hextra]
    · have hlt : table.knot 0 < table.knot (table.data.length - 1) := hspaced.strict (by omega) (by omega)
      rw [if_neg (hlt.trans habove).not_gt, if_pos habove, (piece_last (by omega) x).2, lastSlope, if_neg hextra]

end

def quadratic : ExternalTableData Rat := ⟨1, [[0, 0], [1, 1], [2, 4]], [2], 2, 2⟩

theorem quadratic_reads : quadratic.Reads 0 1 := ⟨⟨[0, 0], rfl, by decide, rfl⟩, by decide⟩

theorem quadratic_spaced : quadratic.Spaced := by
  intro i hi
  have hi' : i + 1 < 3 := hi
  have hlt : i < 2 := by omega
  interval_cases i <;> decide +kernel

/-- The slope at the middle row, and the derivative there. -/
theorem lookup_slopes_quadratic : ∃ value slope : Rat → Rat,
    (∀ x, evalTable1dLookup quadratic 0 x = pure ⟨value x, slope x⟩) ∧ HasSlopeAt value (slope 1) 1 := by
  obtain ⟨value, slope, hlookup, -, -, -, hakima, -⟩ :=
    lookup_slopes quadratic 0 1 quadratic_reads (by decide) quadratic_spaced (by decide)
  exact ⟨value, slope, hlookup, hakima rfl rfl 1⟩

end Rumoca.Eval
