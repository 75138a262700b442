import Mathlib.Algebra.BigOperators.Field
import Mathlib.Algebra.BigOperators.Fin
import Mathlib.LinearAlgebra.Matrix.ToLinearEquiv
import Mathlib.Tactic.FieldSimp
import Mathlib.Tactic.LinearCombination
import Mathlib.Tactic.Ring
/-!
# Systems of linear equations

A system is its first `height` rows of `width` coefficients, each row the
equation that its sum with the unknowns vanishes. Row operations keep the
solutions. A system with unit columns up to some column is solved for the
unknowns before it, or has a solution that shows its columns dependent.
-/

namespace Rumoca.Lib.LinearSystem

open Finset

variable {F : Type*} [Field F] {height width : Nat} {m m' : Nat → Nat → F}

def rowSum (width : Nat) (row y : Nat → F) : F := ∑ c ∈ range width, row c * y c

def Solves (height width : Nat) (m : Nat → Nat → F) (y : Nat → F) : Prop := ∀ r < height, rowSum width (m r) y = 0

/-- The columns before `k` are those of the identity. -/
def UnitColumns (height k : Nat) (m : Nat → Nat → F) : Prop := ∀ c < k, ∀ r < height, m r c = if r = c then 1 else 0

theorem rowSum_congr {row row' : Nat → F} (h : ∀ c < width, row c = row' c) (y : Nat → F) :
    rowSum width row y = rowSum width row' y :=
  sum_congr rfl fun c hc => by rw [h c (mem_range.1 hc)]

/-! ## Row operations -/

theorem solves_swap {a b : Nat} (ha : a < height) (hb : b < height)
    (h : ∀ r < height, ∀ c < width, m' r c = m (Equiv.swap a b r) c) (y : Nat → F) :
    Solves height width m' y ↔ Solves height width m y := by
  have hbound : ∀ r < height, Equiv.swap a b r < height := by
    intro r hr
    rw [Equiv.swap_apply_def]
    split
    · exact hb
    · split
      · exact ha
      · exact hr
  constructor
  · intro hy r hr
    rw [← hy _ (hbound r hr), rowSum_congr (h _ (hbound r hr)), Equiv.swap_apply_self]
  · intro hy r hr
    rw [rowSum_congr (h r hr)]
    exact hy _ (hbound r hr)

theorem solves_scale {p : Nat} {d : F} (hd : d ≠ 0)
    (h : ∀ r < height, ∀ c < width, m' r c = if r = p then m r c / d else m r c) (y : Nat → F) :
    Solves height width m' y ↔ Solves height width m y := by
  refine forall₂_congr fun r hr => ?_
  rw [rowSum_congr (h r hr)]
  by_cases hp : r = p
  · simp only [if_pos hp, rowSum, div_mul_eq_mul_div, ← sum_div]
    exact div_eq_zero_iff.trans (or_iff_left hd)
  · simp only [if_neg hp]

theorem solves_eliminate {p : Nat} (hp : p < height) (factor : Nat → F)
    (h : ∀ r < height, ∀ c < width, m' r c = if r = p then m r c else m r c - factor r * m p c) (y : Nat → F) :
    Solves height width m' y ↔ Solves height width m y := by
  have hsum : ∀ r < height, rowSum width (m' r) y =
      if r = p then rowSum width (m r) y else rowSum width (m r) y - factor r * rowSum width (m p) y := by
    intro r hr
    rw [rowSum_congr (h r hr)]
    by_cases hrp : r = p
    · simp only [if_pos hrp]
    · simp only [if_neg hrp, rowSum, mul_sum, ← sum_sub_distrib]
      exact sum_congr rfl fun c _ => by ring
  constructor
  · intro hy r hr
    have hpivot := hy p hp
    rw [hsum p hp, if_pos rfl] at hpivot
    have hrow := hy r hr
    rw [hsum r hr, hpivot, mul_zero, sub_zero, ite_self] at hrow
    exact hrow
  · intro hy r hr
    rw [hsum r hr, hy r hr, hy p hp, mul_zero, sub_zero, ite_self]

/-! ## Unit columns -/

theorem rowSum_of_unitColumns {k : Nat} (h : UnitColumns height k m) (hk : k ≤ width) {r : Nat} (hr : r < height)
    (y : Nat → F) :
    rowSum width (m r) y = (if r < k then y r else 0) + ∑ c ∈ range (width - k), m r (k + c) * y (k + c) := by
  have hsplit : rowSum width (m r) y =
      ∑ c ∈ range k, m r c * y c + ∑ c ∈ range (width - k), m r (k + c) * y (k + c) := by
    rw [rowSum, ← sum_range_add_sum_Ico _ hk, sum_Ico_eq_sum_range]
  have hunit : ∑ c ∈ range k, m r c * y c = if r < k then y r else 0 := by
    have hterm : ∀ c ∈ range k, m r c * y c = if r = c then y r else 0 := by
      intro c hc
      rw [h c (mem_range.1 hc) r hr]
      by_cases hrc : r = c
      · rw [if_pos hrc, if_pos hrc, one_mul, hrc]
      · rw [if_neg hrc, if_neg hrc, zero_mul]
    rw [sum_congr rfl hterm, sum_ite_eq]
    simp only [mem_range]
  rw [hsplit, hunit]

theorem solves_of_unitColumns {n : Nat} (h : UnitColumns n n m) (y : Nat → F) :
    Solves n (n + 1) m y ↔ ∀ r < n, y r = -(m r n * y n) := by
  refine forall₂_congr fun r hr => ?_
  rw [rowSum_of_unitColumns h (Nat.le_succ n) hr, if_pos hr, Nat.succ_sub le_rfl, Nat.sub_self, sum_range_one,
    Nat.add_zero]
  exact eq_neg_iff_add_eq_zero.symm

theorem exists_solution_of_zero_column {n k : Nat} (h : UnitColumns n k m) (hk : k < n)
    (hzero : ∀ r, k ≤ r → r < n → m r k = 0) : ∃ y : Nat → F, y k = 1 ∧ y n = 0 ∧ Solves n (n + 1) m y := by
  refine ⟨fun c => if c < k then -m c k else if c = k then 1 else 0, by simp, ?_, ?_⟩
  · simp only [if_neg (show ¬n < k by omega), if_neg (show ¬n = k by omega)]
  · intro r hr
    rw [rowSum_of_unitColumns h (by omega) hr]
    have hterm : ∀ c ∈ range (n + 1 - k),
        m r (k + c) * (if k + c < k then -m (k + c) k else if k + c = k then 1 else 0) = if 0 = c then m r k else 0 := by
      intro c _
      by_cases hc : 0 = c
      · subst hc
        simp
      · rw [if_neg (show ¬k + c < k by omega), if_neg (show ¬k + c = k by omega), if_neg hc, mul_zero]
    rw [sum_congr rfl hterm, sum_ite_eq, if_pos (mem_range.2 (by omega))]
    by_cases hrk : r < k
    · simp only [if_pos hrk]
      exact neg_add_cancel _
    · rw [if_neg hrk, hzero r (by omega) hr, add_zero]

/-! ## Matrices -/

def coefficients (n : Nat) (m : Nat → Nat → F) : Matrix (Fin n) (Fin n) F := Matrix.of fun r c => m r c

def rightHandSide (n : Nat) (m : Nat → Nat → F) : Fin n → F := fun r => m r n

def extend {n : Nat} (x : Fin n → F) (last : F) : Nat → F := fun c => if h : c < n then x ⟨c, h⟩ else last

omit [Field F] in
theorem extend_of_lt {n : Nat} (x : Fin n → F) (last : F) (c : Fin n) : extend x last c = x c := dif_pos c.isLt

omit [Field F] in
theorem extend_last {n : Nat} (x : Fin n → F) (last : F) : extend x last n = last := dif_neg (lt_irrefl n)

theorem rowSum_extend {n : Nat} (m : Nat → Nat → F) (x : Fin n → F) (last : F) (r : Fin n) :
    rowSum (n + 1) (m r) (extend x last) = (coefficients n m).mulVec x r + m r n * last := by
  rw [rowSum, sum_range_succ, extend_last, Finset.sum_range]
  congr 1
  exact sum_congr rfl fun c _ => by rw [extend_of_lt]; rfl

/-- The solutions of the equations are those of the extended system whose last unknown is `-1`. -/
theorem mulVec_eq_iff {n : Nat} (m : Nat → Nat → F) (x : Fin n → F) :
    (coefficients n m).mulVec x = rightHandSide n m ↔ Solves n (n + 1) m (extend x (-1)) := by
  rw [funext_iff]
  constructor
  · intro h r hr
    rw [rowSum_extend m x (-1) ⟨r, hr⟩, h ⟨r, hr⟩, rightHandSide]
    ring
  · intro h r
    have hrow := h r r.isLt
    rw [rowSum_extend m x (-1) r] at hrow
    rw [rightHandSide]
    linear_combination hrow

theorem mulVec_eq_zero_iff {n : Nat} (m : Nat → Nat → F) (x : Fin n → F) :
    (coefficients n m).mulVec x = 0 ↔ Solves n (n + 1) m (extend x 0) := by
  rw [funext_iff]
  constructor
  · intro h r hr
    rw [rowSum_extend m x 0 ⟨r, hr⟩, h ⟨r, hr⟩, mul_zero, add_zero]
    rfl
  · intro h r
    have hrow := h r r.isLt
    rw [rowSum_extend m x 0 r, mul_zero, add_zero] at hrow
    exact hrow

end Rumoca.Lib.LinearSystem
