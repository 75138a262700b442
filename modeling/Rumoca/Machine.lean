import Mathlib.Tactic
/-!
# Machine integers

The checked operations of the source on `usize`, `u32` and `i64`. A value is
a `Nat` or an `Int`; a checked operation answers `none` where the source's
does, outside the type's range. `usize` has 64 bits.
-/

namespace Rumoca

/-- One past the largest `usize`. -/
def usizeLimit : Nat := 2 ^ 64

/-- One past the largest `u32`. -/
def u32Limit : Nat := 2 ^ 32

/-- One past the largest `i64`. -/
def i64Limit : Int := 2 ^ 63

/-- A result that must fit a `usize`. -/
def checkedUsize (n : Nat) : Option Nat := if n < usizeLimit then some n else none

/-- A result that must fit a `u32`. -/
def checkedU32 (n : Nat) : Option Nat := if n < u32Limit then some n else none

/-- A result that must fit an `i64`. -/
def checkedI64 (z : Int) : Option Int := if -i64Limit ≤ z ∧ z < i64Limit then some z else none

/-- The values of the source's `i64`. -/
def IsI64 (z : Int) : Prop := -i64Limit ≤ z ∧ z < i64Limit

instance (z : Int) : Decidable (IsI64 z) := inferInstanceAs (Decidable (_ ∧ _))

/-- `usize::try_from` of an `i64`. -/
def usizeOfI64 (z : Int) : Option Nat := if 0 ≤ z then some z.toNat else none

/-- `u32::try_from` of an `i64`. -/
def u32OfI64 (z : Int) : Option Nat := if 0 ≤ z then checkedU32 z.toNat else none

theorem checkedUsize_eq_some {n m : Nat} : checkedUsize n = some m ↔ n = m ∧ n < usizeLimit := by
  unfold checkedUsize
  split
  · simp_all
  · simp only [reduceCtorEq, false_iff]; omega

theorem checkedU32_eq_some {n m : Nat} : checkedU32 n = some m ↔ n = m ∧ n < u32Limit := by
  unfold checkedU32
  split
  · simp_all
  · simp only [reduceCtorEq, false_iff]; omega

theorem checkedI64_eq_some {z w : Int} :
    checkedI64 z = some w ↔ z = w ∧ -i64Limit ≤ z ∧ z < i64Limit := by
  unfold checkedI64
  split
  · simp_all
  · simp only [reduceCtorEq, false_iff]; rintro ⟨rfl, h⟩; contradiction

/-! ## Sorted runs -/

/-- `sort_unstable` and then `dedup`. -/
def sortDedup (xs : List Nat) : List Nat := (xs.insertionSort (· ≤ ·)).dedup

@[simp] theorem mem_sortDedup {xs : List Nat} {x : Nat} : x ∈ sortDedup xs ↔ x ∈ xs := by
  simp [sortDedup]

theorem sortDedup_sorted (xs : List Nat) : (sortDedup xs).Pairwise (· < ·) := by
  have hle : (sortDedup xs).Pairwise (· ≤ ·) :=
    (List.pairwise_insertionSort (· ≤ ·) xs).sublist (List.dedup_sublist _)
  have hne : (sortDedup xs).Pairwise (· ≠ ·) := List.nodup_dedup _
  exact (hle.and hne).imp fun h => lt_of_le_of_ne h.1 h.2

end Rumoca
