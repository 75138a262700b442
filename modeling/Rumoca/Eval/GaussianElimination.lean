import Rumoca.Eval.Arithmetic
import Rumoca.Lib.LinearSystem
import Rumoca.Lib.Loop
/-!
# Gaussian elimination

The augmented matrix is reduced in place, column by column: the row with the
largest entry comes up, is divided by it, and its multiples are taken from the
other rows. The solutions of the equations stay, and the columns passed are
those of the identity.
-/

namespace Rumoca.Eval

open Lib Lib.LinearSystem

namespace AugmentedMatrix

variable {F : Type}

def set (matrix : AugmentedMatrix F) (row col : Nat) (value : F) : AugmentedMatrix F :=
  { matrix with get := fun r c => if r = row ∧ c = col then value else matrix.get r c }

def swapEntry (lhs rhs : Nat) (matrix : AugmentedMatrix F) (col : Nat) : AugmentedMatrix F :=
  (matrix.set lhs col (matrix.get rhs col)).set rhs col (matrix.get lhs col)

def swapRowsInPlace (matrix : AugmentedMatrix F) (lhs rhs : Nat) : AugmentedMatrix F :=
  (List.range (matrix.n + 1)).foldl (swapEntry lhs rhs) matrix

def solutionComponent (matrix : AugmentedMatrix F) (component : Nat) : F := matrix.get component matrix.n

/-! ## The elimination -/

variable [Field F] [LinearOrder F]

/-- The last of the rows from `col` on with the largest magnitude in the column. -/
def pivotRow (matrix : AugmentedMatrix F) (col : Nat) : Option Nat :=
  match List.range' col (matrix.n - col) with
  | [] => none
  | first :: rest =>
    some (rest.foldl (fun best row => if |matrix.get row col| < |matrix.get best col| then best else row) first)

def normalizePivotRowInPlace (matrix : AugmentedMatrix F) (col : Nat) : AugmentedMatrix F :=
  let pivot := matrix.get col col
  (List.range' col (matrix.n + 1 - col)).foldl
    (fun matrix colIdx => matrix.set col colIdx (matrix.get col colIdx / pivot)) matrix

/-- One row of `eliminate_column`. -/
def eliminateRow (col : Nat) (matrix : AugmentedMatrix F) (rowIdx : Nat) : AugmentedMatrix F :=
  if rowIdx = col then matrix
  else
    let factor := matrix.get rowIdx col
    (List.range' col (matrix.n + 1 - col)).foldl
      (fun matrix colIdx => matrix.set rowIdx colIdx (matrix.get rowIdx colIdx - factor * matrix.get col colIdx)) matrix

def eliminateColumnInPlace (matrix : AugmentedMatrix F) (col : Nat) : AugmentedMatrix F :=
  (List.range matrix.n).foldl (eliminateRow col) matrix

def reduceColumn (matrix : AugmentedMatrix F) (col : Nat) : Option (AugmentedMatrix F) :=
  (matrix.pivotRow col).bind fun pivot =>
    if matrix.get pivot col = 0 then none
    else some (((matrix.swapRowsInPlace col pivot).normalizePivotRowInPlace col).eliminateColumnInPlace col)

def gaussianEliminateInPlace (matrix : AugmentedMatrix F) : Option (AugmentedMatrix F) :=
  (List.range matrix.n).foldlM reduceColumn matrix

end AugmentedMatrix

/-! ## What the loops write -/

namespace AugmentedMatrix

section
variable {F : Type}

@[simp] theorem set_n (matrix : AugmentedMatrix F) (row col : Nat) (value : F) : (matrix.set row col value).n = matrix.n := rfl

theorem set_get (matrix : AugmentedMatrix F) (row col : Nat) (value : F) (r c : Nat) :
    (matrix.set row col value).get r c = if r = row ∧ c = col then value else matrix.get r c := rfl

/-- A pass over distinct columns that rewrites the entries of one row, each from the entry itself. -/
theorem foldl_set_row (matrix : AugmentedMatrix F) (row : Nat) (step : AugmentedMatrix F → Nat → F)
    (g : Nat → F → F) {cols : List Nat} (hstep : ∀ m : AugmentedMatrix F, (∀ r c, r ≠ row → m.get r c = matrix.get r c) → ∀ c ∈ cols,
      step m c = g c (m.get row c)) (hcols : cols.Nodup) :
    (cols.foldl (fun m c => m.set row c (step m c)) matrix).n = matrix.n ∧
      ∀ r c, (cols.foldl (fun m c => m.set row c (step m c)) matrix).get r c =
        if r = row ∧ c ∈ cols then g c (matrix.get row c) else matrix.get r c := by
  have hinv := foldl_inv (f := fun m c => m.set row c (step m c)) (l := cols)
    (fun pre (m : AugmentedMatrix F) => m.n = matrix.n ∧
      ∀ r c, m.get r c = if r = row ∧ c ∈ pre then g c (matrix.get row c) else matrix.get r c)
    (s := matrix) ?_ ⟨rfl, fun r c => by simp⟩
  · exact hinv
  · rintro pre col post m hl ⟨hn, hget⟩
    refine ⟨hn, fun r c => ?_⟩
    have hnotMem : col ∉ pre := by
      rw [hl] at hcols
      exact fun hmem => (List.nodup_append.1 hcols).2.2 col hmem col List.mem_cons_self rfl
    have hvalue : step m col = g col (matrix.get row col) := by
      rw [hstep m (fun r c hr => by rw [hget, if_neg fun h => hr h.1]) col (by rw [hl]; simp), hget,
        if_neg fun h => hnotMem h.2]
    rw [set_get, hvalue, hget]
    by_cases hr : r = row
    · by_cases hc : c = col
      · subst hr hc
        simp
      · rw [if_neg fun h => hc h.2]
        simp [hr, hc]
    · rw [if_neg fun h => hr h.1, if_neg fun h => hr h.1, if_neg fun h => hr h.1]

theorem swapRowsInPlace_spec (matrix : AugmentedMatrix F) (lhs rhs : Nat) :
    (matrix.swapRowsInPlace lhs rhs).n = matrix.n ∧ ∀ r c, (matrix.swapRowsInPlace lhs rhs).get r c =
      if c < matrix.n + 1 then matrix.get (Equiv.swap lhs rhs r) c else matrix.get r c := by
  have hinv := foldl_inv (f := swapEntry lhs rhs) (l := List.range (matrix.n + 1))
    (fun pre (m : AugmentedMatrix F) => m.n = matrix.n ∧
      ∀ r c, m.get r c = if c ∈ pre then matrix.get (Equiv.swap lhs rhs r) c else matrix.get r c)
    (s := matrix) ?_ ⟨rfl, fun r c => by simp⟩
  · rw [swapRowsInPlace]
    simpa only [List.mem_range] using hinv
  · rintro pre col post m hl ⟨hn, hget⟩
    refine ⟨hn, fun r c => ?_⟩
    have hnotMem : col ∉ pre := by
      have hnodup := List.nodup_range (n := matrix.n + 1)
      rw [hl] at hnodup
      exact fun hmem => (List.nodup_append.1 hnodup).2.2 col hmem col List.mem_cons_self rfl
    have hlhs : m.get lhs col = matrix.get lhs col := by rw [hget, if_neg hnotMem]
    have hrhs : m.get rhs col = matrix.get rhs col := by rw [hget, if_neg hnotMem]
    rw [swapEntry, set_get, set_get, hlhs, hrhs, hget]
    by_cases hc : c = col
    · subst hc
      rw [if_pos (show c ∈ pre ++ [c] by simp), if_neg hnotMem, Equiv.swap_apply_def]
      by_cases h1 : r = rhs
      · by_cases h2 : r = lhs
        · rw [if_pos ⟨h1, rfl⟩, if_pos h2, ← h2, h1]
        · rw [if_pos ⟨h1, rfl⟩, if_neg h2, if_pos h1]
      · by_cases h2 : r = lhs
        · rw [if_neg fun h => h1 h.1, if_pos ⟨h2, rfl⟩, if_pos h2]
        · rw [if_neg fun h => h1 h.1, if_neg fun h => h2 h.1, if_neg h2, if_neg h1]
    · rw [if_neg fun h => hc h.2, if_neg fun h => hc h.2]
      simp [hc]

end

section
variable {F : Type} [Field F] [LinearOrder F] {matrix : AugmentedMatrix F} {col : Nat}

omit [Field F] [LinearOrder F] in
theorem mem_columns (h : col ≤ matrix.n) (c : Nat) :
    c ∈ List.range' col (matrix.n + 1 - col) ↔ col ≤ c ∧ c < matrix.n + 1 := by
  rw [List.mem_range'_1]
  omega

omit [LinearOrder F] in
theorem normalizePivotRowInPlace_spec (h : col ≤ matrix.n) :
    (matrix.normalizePivotRowInPlace col).n = matrix.n ∧ ∀ r c, (matrix.normalizePivotRowInPlace col).get r c =
      if r = col ∧ col ≤ c ∧ c < matrix.n + 1 then matrix.get col c / matrix.get col col else matrix.get r c := by
  have hspec := foldl_set_row matrix col (fun m c => m.get col c / matrix.get col col)
    (fun _ v => v / matrix.get col col) (fun m _ c _ => rfl) (List.nodup_range' (s := col) (n := matrix.n + 1 - col))
  rw [normalizePivotRowInPlace]
  simpa only [mem_columns h] using hspec

omit [LinearOrder F] in
theorem eliminateRow_spec (h : col ≤ matrix.n) {row : Nat} (hrow : row ≠ col) :
    (matrix.eliminateRow col row).n = matrix.n ∧ ∀ r c, (matrix.eliminateRow col row).get r c =
      if r = row ∧ col ≤ c ∧ c < matrix.n + 1 then matrix.get row c - matrix.get row col * matrix.get col c
      else matrix.get r c := by
  have hspec := foldl_set_row matrix row (fun m c => m.get row c - matrix.get row col * m.get col c)
    (fun c v => v - matrix.get row col * matrix.get col c)
    (fun m hm c _ => by rw [hm col c (Ne.symm hrow)]) (List.nodup_range' (s := col) (n := matrix.n + 1 - col))
  rw [eliminateRow, if_neg hrow]
  simpa only [mem_columns h] using hspec

omit [LinearOrder F] in
theorem eliminateColumnInPlace_spec (h : col ≤ matrix.n) :
    (matrix.eliminateColumnInPlace col).n = matrix.n ∧ ∀ r c, (matrix.eliminateColumnInPlace col).get r c =
      if r ≠ col ∧ r < matrix.n ∧ col ≤ c ∧ c < matrix.n + 1 then
        matrix.get r c - matrix.get r col * matrix.get col c
      else matrix.get r c := by
  have hinv := foldl_inv (f := eliminateRow col) (l := List.range matrix.n)
    (fun pre (m : AugmentedMatrix F) => m.n = matrix.n ∧ ∀ r c, m.get r c =
      if r ≠ col ∧ r ∈ pre ∧ col ≤ c ∧ c < matrix.n + 1 then
        matrix.get r c - matrix.get r col * matrix.get col c
      else matrix.get r c)
    (s := matrix) ?_ ⟨rfl, fun r c => by simp⟩
  · rw [eliminateColumnInPlace]
    simpa only [List.mem_range] using hinv
  · rintro pre row post m hl ⟨hn, hget⟩
    by_cases hrow : row = col
    · rw [eliminateRow, if_pos hrow]
      refine ⟨hn, fun r c => ?_⟩
      rw [hget]
      by_cases hr : r = col
      · rw [if_neg fun h => h.1 hr, if_neg fun h => h.1 hr]
      · have hmem : r ∈ pre ++ [row] ↔ r ∈ pre := by simp [hrow, hr]
        simp only [hmem]
    · have hnotMem : row ∉ pre := by
        have hnodup := List.nodup_range (n := matrix.n)
        rw [hl] at hnodup
        exact fun hmem => (List.nodup_append.1 hnodup).2.2 row hmem row List.mem_cons_self rfl
      obtain ⟨hn', hget'⟩ := eliminateRow_spec (h.trans_eq hn.symm) hrow
      refine ⟨hn'.trans hn, fun r c => ?_⟩
      have hsame : ∀ c, m.get row c = matrix.get row c := fun c => by rw [hget, if_neg fun h => hnotMem h.2.1]
      have hpivot : ∀ c, m.get col c = matrix.get col c := fun c => by rw [hget, if_neg fun h => h.1 rfl]
      rw [hget', hsame, hsame, hpivot, hn]
      by_cases hr : r = row
      · subst hr
        by_cases hc : col ≤ c ∧ c < matrix.n + 1
        · rw [if_pos ⟨rfl, hc⟩, if_pos ⟨hrow, by simp, hc⟩]
        · rw [if_neg fun h => hc h.2, if_neg fun h => hc h.2.2, hsame]
      · rw [if_neg fun h => hr h.1, hget]
        have hmem : r ∈ pre ++ [row] ↔ r ∈ pre := by simp [hr]
        simp only [hmem]

theorem pivotRow_spec (h : col < matrix.n) : ∃ pivot, matrix.pivotRow col = some pivot ∧ col ≤ pivot ∧ pivot < matrix.n ∧
    ∀ r, col ≤ r → r < matrix.n → |matrix.get r col| ≤ |matrix.get pivot col| := by
  have hrange : List.range' col (matrix.n - col) = col :: List.range' (col + 1) (matrix.n - col - 1) := by
    rw [show matrix.n - col = (matrix.n - col - 1) + 1 by omega, List.range'_succ, Nat.add_sub_cancel]
  have hinv := foldl_inv
    (f := fun best row => if |matrix.get row col| < |matrix.get best col| then best else row)
    (l := List.range' (col + 1) (matrix.n - col - 1))
    (fun pre best => best ∈ col :: pre ∧ ∀ r ∈ col :: pre, |matrix.get r col| ≤ |matrix.get best col|)
    (s := col) ?_ ⟨List.mem_cons_self, fun r hr => by rw [List.mem_singleton.1 hr]⟩
  · rw [pivotRow, hrange]
    refine ⟨_, rfl, ?_⟩
    obtain ⟨hmem, hmax⟩ := hinv
    have hall : ∀ r, r ∈ col :: List.range' (col + 1) (matrix.n - col - 1) ↔ col ≤ r ∧ r < matrix.n := by
      intro r
      rw [← hrange, List.mem_range'_1]
      omega
    exact ⟨((hall _).1 hmem).1, ((hall _).1 hmem).2, fun r h1 h2 => hmax r ((hall r).2 ⟨h1, h2⟩)⟩
  · rintro pre row post best - ⟨hmem, hmax⟩
    rw [← List.cons_append]
    split
    · rename_i hlt
      refine ⟨List.mem_append_left _ hmem, fun r hr => ?_⟩
      rcases List.mem_append.1 hr with hr | hr
      · exact hmax r hr
      · rw [List.mem_singleton.1 hr]
        exact hlt.le
    · rename_i hle
      refine ⟨List.mem_append_right _ List.mem_cons_self, fun r hr => ?_⟩
      rcases List.mem_append.1 hr with hr | hr
      · exact (hmax r hr).trans (not_lt.1 hle)
      · rw [List.mem_singleton.1 hr]

end

/-! ## The invariant -/

section
variable {F : Type} [Field F]

/-- The columns before `col` are reduced, and the equations have the solutions of the first ones. -/
structure Reduced (start : AugmentedMatrix F) (col : Nat) (matrix : AugmentedMatrix F) : Prop where
  size : matrix.n = start.n
  units : UnitColumns start.n col matrix.get
  solutions : ∀ y, Solves start.n (start.n + 1) matrix.get y ↔ Solves start.n (start.n + 1) start.get y

theorem Reduced.refl (start : AugmentedMatrix F) : Reduced start 0 start :=
  ⟨rfl, fun _ hc => absurd hc (Nat.not_lt_zero _), fun _ => Iff.rfl⟩

variable {start matrix : AugmentedMatrix F} {col : Nat}

theorem Reduced.swapRowsInPlace (h : Reduced start col matrix) (hcol : col < start.n) {pivot : Nat} (hle : col ≤ pivot)
    (hlt : pivot < start.n) : Reduced start col (matrix.swapRowsInPlace col pivot) := by
  obtain ⟨hn, hget⟩ := swapRowsInPlace_spec matrix col pivot
  rw [h.size] at hn hget
  refine ⟨hn, fun c hc r hr => ?_, fun y => ?_⟩
  · have hbound : Equiv.swap col pivot r < start.n := by
      rw [Equiv.swap_apply_def]
      split
      · exact hlt
      · split
        · exact hcol
        · exact hr
    have hiff : Equiv.swap col pivot r = c ↔ r = c := by
      rw [Equiv.swap_apply_def]
      split
      · omega
      · split
        · omega
        · exact Iff.rfl
    rw [hget, if_pos (by omega), h.units c hc _ hbound]
    simp only [hiff]
  · rw [← h.solutions]
    exact solves_swap hcol hlt (fun r _ c hc => by rw [hget, if_pos hc]) y

theorem Reduced.normalizePivotRowInPlace (h : Reduced start col matrix) (hcol : col < start.n) (hpivot : matrix.get col col ≠ 0) :
    Reduced start col (matrix.normalizePivotRowInPlace col) ∧ (matrix.normalizePivotRowInPlace col).get col col = 1 := by
  obtain ⟨hn, hget⟩ := normalizePivotRowInPlace_spec (show col ≤ matrix.n from hcol.le.trans_eq h.size.symm)
  rw [h.size] at hn hget
  refine ⟨⟨hn, fun c hc r hr => ?_, fun y => ?_⟩, ?_⟩
  · rw [hget, if_neg fun hr => absurd hr.2.1 (Nat.not_le.2 hc)]
    exact h.units c hc r hr
  · rw [← h.solutions]
    refine solves_scale (p := col) hpivot (fun r _ c hc => ?_) y
    rw [hget]
    by_cases hr : r = col
    · by_cases hcc : col ≤ c
      · rw [if_pos ⟨hr, hcc, hc⟩, if_pos hr, hr]
      · -- The entries before the pivot are zero.
        have hzero : matrix.get r c = 0 := by
          rw [hr, h.units c (by omega) col hcol, if_neg (by omega)]
        rw [if_neg fun h => hcc h.2.1, if_pos hr, hzero, zero_div]
    · rw [if_neg fun h => hr h.1, if_neg hr]
  · rw [hget, if_pos ⟨rfl, le_rfl, by omega⟩, div_self hpivot]

theorem Reduced.eliminateColumnInPlace (h : Reduced start col matrix) (hcol : col < start.n) (hone : matrix.get col col = 1) :
    Reduced start (col + 1) (matrix.eliminateColumnInPlace col) := by
  obtain ⟨hn, hget⟩ := eliminateColumnInPlace_spec (show col ≤ matrix.n from hcol.le.trans_eq h.size.symm)
  rw [h.size] at hn hget
  refine ⟨hn, fun c hc r hr => ?_, fun y => ?_⟩
  · rw [hget]
    by_cases hcc : c = col
    · subst hcc
      by_cases hrc : r = c
      · rw [if_neg fun h => h.1 hrc, if_pos hrc, hrc, hone]
      · rw [if_pos ⟨hrc, hr, le_rfl, by omega⟩, if_neg hrc, hone, mul_one, sub_self]
    · rw [if_neg fun h => absurd h.2.2.1 (by omega)]
      exact h.units c (by omega) r hr
  · rw [← h.solutions]
    refine solves_eliminate hcol (fun r => matrix.get r col) (fun r hr c hc => ?_) y
    rw [hget]
    by_cases hrc : r = col
    · rw [if_neg fun h => h.1 hrc, if_pos hrc]
    · by_cases hcc : col ≤ c
      · rw [if_pos ⟨hrc, hr, hcc, hc⟩, if_neg hrc]
      · -- The pivot row is zero before the pivot.
        have hzero : matrix.get col c = 0 := by rw [h.units c (by omega) col hcol, if_neg (by omega)]
        rw [if_neg fun h => hcc h.2.2.1, if_neg hrc, hzero, mul_zero, sub_zero]

end

variable {F : Type} [Field F] [LinearOrder F] [IsStrictOrderedRing F] {start matrix : AugmentedMatrix F} {col : Nat}

theorem reduceColumn_spec (h : Reduced start col matrix) (hcol : col < start.n) :
    (∃ reduced, matrix.reduceColumn col = some reduced ∧ Reduced start (col + 1) reduced) ∨
      matrix.reduceColumn col = none ∧ ∀ r, col ≤ r → r < start.n → matrix.get r col = 0 := by
  obtain ⟨pivot, hsome, hle, hlt, hmax⟩ := pivotRow_spec (show col < matrix.n from hcol.trans_eq h.size.symm)
  rw [h.size] at hlt hmax
  rw [reduceColumn, hsome, Option.bind_some]
  by_cases hzero : matrix.get pivot col = 0
  · refine .inr ⟨if_pos hzero, fun r h1 h2 => ?_⟩
    have habs := hmax r h1 h2
    rw [hzero, abs_zero] at habs
    exact abs_nonpos_iff.1 habs
  · rw [if_neg hzero]
    have hswap := h.swapRowsInPlace hcol hle hlt
    have hpivot : (matrix.swapRowsInPlace col pivot).get col col ≠ 0 := by
      rw [(swapRowsInPlace_spec matrix col pivot).2, h.size, if_pos (by omega), Equiv.swap_apply_left]
      exact hzero
    obtain ⟨hnormal, hone⟩ := hswap.normalizePivotRowInPlace hcol hpivot
    exact .inl ⟨_, rfl, hnormal.eliminateColumnInPlace hcol hone⟩

theorem gaussianEliminateInPlace_cases (start : AugmentedMatrix F) :
    (∃ reduced, start.gaussianEliminateInPlace = some reduced ∧ Reduced start start.n reduced) ∨
      start.gaussianEliminateInPlace = none ∧ ∃ col < start.n, ∃ matrix, Reduced start col matrix ∧
        ∀ r, col ≤ r → r < start.n → matrix.get r col = 0 := by
  have key : ∀ k ≤ start.n,
      (∃ reduced, (List.range k).foldlM reduceColumn start = some reduced ∧ Reduced start k reduced) ∨
        (List.range k).foldlM reduceColumn start = none ∧ ∃ col < start.n, ∃ matrix, Reduced start col matrix ∧
          ∀ r, col ≤ r → r < start.n → matrix.get r col = 0 := by
    intro k
    induction k with
    | zero => exact fun _ => .inl ⟨start, rfl, .refl start⟩
    | succ k ih =>
      intro hk
      rw [List.range_succ, List.foldlM_append]
      rcases ih (Nat.le_of_succ_le hk) with ⟨matrix, hsome, hred⟩ | ⟨hnone, hcol⟩
      · rw [hsome]
        rcases reduceColumn_spec hred hk with ⟨reduced, hstep, hred'⟩ | ⟨hstep, hzero⟩
        · exact .inl ⟨reduced, by simp [hstep], hred'⟩
        · exact .inr ⟨by simp [hstep], k, hk, matrix, hred, hzero⟩
      · rw [hnone]
        exact .inr ⟨rfl, hcol⟩
  exact key start.n le_rfl

/-! ## Nonsingular systems -/

def matrixOf (matrix : AugmentedMatrix F) : Matrix (Fin matrix.n) (Fin matrix.n) F := coefficients matrix.n matrix.get

def rhsOf (matrix : AugmentedMatrix F) : Fin matrix.n → F := rightHandSide matrix.n matrix.get

/-- The last column of a reduced matrix of `n` rows. -/
def solution (n : Nat) (reduced : AugmentedMatrix F) : Fin n → F := fun component => reduced.solutionComponent component

theorem gaussianEliminateInPlace_spec (start : AugmentedMatrix F) :
    (start.matrixOf.det ≠ 0 ∧ ∃ reduced, start.gaussianEliminateInPlace = some reduced ∧
        ∀ x, start.matrixOf.mulVec x = start.rhsOf ↔ x = solution start.n reduced) ∨
      start.matrixOf.det = 0 ∧ start.gaussianEliminateInPlace = none := by
  rcases gaussianEliminateInPlace_cases start with ⟨reduced, hsome, hred⟩ | ⟨hnone, col, hcol, matrix, hred, hzero⟩
  · refine .inl ⟨fun hdet => ?_, reduced, hsome, fun x => ?_⟩
    · obtain ⟨x, hx, hker⟩ := Matrix.exists_mulVec_eq_zero_iff.2 hdet
      rw [matrixOf, mulVec_eq_zero_iff, ← hred.solutions, solves_of_unitColumns hred.units] at hker
      refine hx (funext fun r => ?_)
      have hr := hker r r.isLt
      rwa [extend_of_lt, extend_last, mul_zero, neg_zero] at hr
    · rw [matrixOf, rhsOf, mulVec_eq_iff, ← hred.solutions, solves_of_unitColumns hred.units, funext_iff]
      constructor
      · intro h r
        have hr := h r r.isLt
        rw [extend_of_lt, extend_last, mul_neg_one, neg_neg] at hr
        rw [hr, solution, solutionComponent, hred.size]
      · intro h r hr
        rw [extend_last, mul_neg_one, neg_neg]
        have := h ⟨r, hr⟩
        rw [solution, solutionComponent, hred.size] at this
        rw [← this]
        exact extend_of_lt x (-1) ⟨r, hr⟩
  · refine .inr ⟨?_, hnone⟩
    obtain ⟨y, hone, hlast, hsolves⟩ := exists_solution_of_zero_column hred.units hcol hzero
    refine Matrix.exists_mulVec_eq_zero_iff.1 ⟨fun c => y c, fun h => ?_, ?_⟩
    · have := congrFun h ⟨col, hcol⟩
      rw [hone] at this
      exact one_ne_zero this
    · rw [matrixOf, mulVec_eq_zero_iff]
      rw [hred.solutions] at hsolves
      intro r hr
      refine Eq.trans (Finset.sum_congr rfl fun c hc => ?_) (hsolves r hr)
      rcases Nat.lt_or_ge c start.n with hlt | hge
      · rw [extend_of_lt (fun c : Fin start.n => y c) 0 ⟨c, hlt⟩]
      · obtain rfl : c = start.n := by
          have := Finset.mem_range.1 hc
          omega
        rw [extend_last, hlast]

/-! ## The elimination by rows

`gaussianEliminate` gives the entries that a pass leaves in one step. Within
the matrix these are the entries the loops write.
-/

/-- The same entries within the matrix. -/
structure SameEntries (matrix other : AugmentedMatrix F) : Prop where
  size : matrix.n = other.n
  entries : ∀ r < matrix.n, ∀ c ≤ matrix.n, matrix.get r c = other.get r c

variable {other : AugmentedMatrix F}

omit [IsStrictOrderedRing F] in
theorem SameEntries.pivotRow (h : SameEntries matrix other) (hcol : col < matrix.n) :
    matrix.pivotRow col = some (other.pivot col) := by
  have hrange : List.range' col (matrix.n - col) = col :: List.range' (col + 1) (matrix.n - (col + 1)) := by
    rw [show matrix.n - col = (matrix.n - (col + 1)) + 1 by omega, List.range'_succ]
  have hfold : ∀ (rows : List Nat) (best : Nat), (∀ row ∈ rows, row < matrix.n) → best < matrix.n →
      rows.foldl (fun best row => if |matrix.get row col| < |matrix.get best col| then best else row) best =
        rows.foldl (fun best row => if |other.get best col| ≤ |other.get row col| then row else best) best := by
    intro rows
    induction rows with
    | nil => exact fun best _ _ => rfl
    | cons row rows ih =>
      intro best hrows hbest
      obtain ⟨hrow, hrows⟩ := List.forall_mem_cons.1 hrows
      rw [List.foldl_cons, List.foldl_cons, ← h.entries row hrow col hcol.le, ← h.entries best hbest col hcol.le]
      by_cases hlt : |matrix.get row col| < |matrix.get best col|
      · rw [if_pos hlt, if_neg (not_le.2 hlt)]
        exact ih best hrows hbest
      · rw [if_neg hlt, if_pos (not_lt.1 hlt)]
        exact ih row hrows hrow
  rw [AugmentedMatrix.pivotRow, hrange]
  refine congrArg some ?_
  rw [pivot, ← h.size]
  exact hfold _ col (fun row hrow => by rw [List.mem_range'_1] at hrow; omega) hcol

omit [IsStrictOrderedRing F] in
/-- A column is reduced, or refused, alike. -/
theorem SameEntries.reduceColumn (h : SameEntries matrix other) (hcol : col < matrix.n) :
    (matrix.reduceColumn col = none ∧ eliminateStep other col = none) ∨
      ∃ reduced reduced', matrix.reduceColumn col = some reduced ∧ eliminateStep other col = some reduced' ∧
        reduced.n = matrix.n ∧ SameEntries reduced reduced' := by
  obtain ⟨pivot, hsome, -, hlt, -⟩ := pivotRow_spec hcol
  have hpivot : other.pivot col = pivot := Option.some.inj ((h.pivotRow hcol).symm.trans hsome)
  rw [AugmentedMatrix.reduceColumn, hsome, Option.bind_some, eliminateStep, hpivot, ← h.entries pivot hlt col hcol.le]
  by_cases hzero : matrix.get pivot col = 0
  · exact .inl ⟨if_pos hzero, if_pos hzero⟩
  · rw [if_neg hzero, if_neg hzero]
    refine .inr ⟨_, _, rfl, rfl, ?_⟩
    obtain ⟨hn₁, hget₁⟩ := swapRowsInPlace_spec matrix col pivot
    have hle₁ : col ≤ (matrix.swapRowsInPlace col pivot).n := hcol.le.trans_eq hn₁.symm
    obtain ⟨hn₂, hget₂⟩ := normalizePivotRowInPlace_spec hle₁
    obtain ⟨hn₃, hget₃⟩ := eliminateColumnInPlace_spec (hle₁.trans_eq hn₂.symm)
    rw [hn₂, hn₁] at hn₃
    refine ⟨hn₃, hn₃.trans h.size, fun r hr c hc => ?_⟩
    rw [hn₃] at hr hc
    have hswapped : ∀ r < matrix.n, ∀ c ≤ matrix.n, (matrix.swapRowsInPlace col pivot).get r c =
        (other.swapRows col pivot).get r c := by
      intro r hr c hc
      rw [hget₁, if_pos (Nat.lt_succ_of_le hc), swapRows]
      refine h.entries _ ?_ c hc
      rw [Equiv.swap_apply_def]
      split
      · exact hlt
      · split
        · exact hcol
        · exact hr
    have hnormal : ∀ r < matrix.n, ∀ c ≤ matrix.n,
        ((matrix.swapRowsInPlace col pivot).normalizePivotRowInPlace col).get r c =
          ((other.swapRows col pivot).normalizePivotRow col).get r c := by
      intro r hr c hc
      rw [hget₂, hn₁, normalizePivotRow]
      dsimp only
      rw [← hswapped r hr c hc, ← hswapped col hcol col hcol.le]
      by_cases hrow : r = col ∧ col ≤ c
      · rw [if_pos ⟨hrow.1, hrow.2, Nat.lt_succ_of_le hc⟩, if_pos hrow, hrow.1]
      · rw [if_neg fun h => hrow ⟨h.1, h.2.1⟩, if_neg hrow]
    rw [hget₃, hn₂, hn₁, eliminateColumn]
    dsimp only
    rw [← hnormal r hr c hc, ← hnormal r hr col hcol.le, ← hnormal col hcol c hc]
    by_cases hrow : r ≠ col ∧ col ≤ c
    · rw [if_pos ⟨hrow.1, hr, hrow.2, Nat.lt_succ_of_le hc⟩, if_pos hrow]
    · rw [if_neg fun h => hrow ⟨h.1, h.2.2.1⟩, if_neg hrow]

omit [IsStrictOrderedRing F] in
/-- The elimination in place refines the one entry by entry. -/
theorem SameEntries.gaussianEliminate (h : SameEntries matrix other) :
    (matrix.gaussianEliminateInPlace = none ∧ Eval.gaussianEliminate other = none) ∨
      ∃ reduced reduced', matrix.gaussianEliminateInPlace = some reduced ∧
        Eval.gaussianEliminate other = some reduced' ∧ SameEntries reduced reduced' := by
  have key : ∀ (cols : List Nat) (matrix other : AugmentedMatrix F), SameEntries matrix other →
      (∀ col ∈ cols, col < matrix.n) →
      (cols.foldlM AugmentedMatrix.reduceColumn matrix = none ∧ cols.foldlM eliminateStep other = none) ∨
        ∃ reduced reduced', cols.foldlM AugmentedMatrix.reduceColumn matrix = some reduced ∧
          cols.foldlM eliminateStep other = some reduced' ∧ SameEntries reduced reduced' := by
    intro cols
    induction cols with
    | nil => exact fun matrix other h _ => .inr ⟨matrix, other, rfl, rfl, h⟩
    | cons col cols ih =>
      intro matrix other h hcols
      obtain ⟨hcol, hcols⟩ := List.forall_mem_cons.1 hcols
      rw [List.foldlM_cons, List.foldlM_cons]
      rcases h.reduceColumn hcol with ⟨hnone, hnone'⟩ | ⟨reduced, reduced', hsome, hsome', hn, hsame⟩
      · rw [hnone, hnone']
        exact .inl ⟨rfl, rfl⟩
      · rw [hsome, hsome']
        exact ih reduced reduced' hsame fun c hc => (hcols c hc).trans_eq hn.symm
  rw [gaussianEliminateInPlace, Eval.gaussianEliminate, ← h.size]
  exact key _ matrix other h fun col hcol => List.mem_range.1 hcol

omit [IsStrictOrderedRing F] in
theorem gaussianEliminateInPlace_entrywise (matrix : AugmentedMatrix F) :
    (matrix.gaussianEliminateInPlace = none ∧ Eval.gaussianEliminate matrix = none) ∨
      ∃ reduced reduced', matrix.gaussianEliminateInPlace = some reduced ∧
        Eval.gaussianEliminate matrix = some reduced' ∧ SameEntries reduced reduced' :=
  SameEntries.gaussianEliminate ⟨rfl, fun _ _ _ _ => rfl⟩

end AugmentedMatrix

end Rumoca.Eval
