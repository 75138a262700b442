import Mathlib.Algebra.BigOperators.Group.Finset.Sigma
import Mathlib.Algebra.BigOperators.Ring.Finset
import Mathlib.Algebra.Field.Basic
import Mathlib.Data.Set.Basic
import Mathlib.Tactic.Ring
/-!
# Affine functions on a set of points

A function of a point is affine in some coordinates over a set of points when
one constant and one coefficient for each coordinate give its value at every
point of the set. Constant functions are affine, and sums, and products and
quotients by a constant function, stay affine.
-/

namespace Rumoca.Lib

variable {P ι K : Type}

def ConstantOn (S : Set P) (f : P → K) : Prop := ∃ c, ∀ p ∈ S, f p = c

/-- Affine in the coordinates `targets` of a point. -/
def AffineOn [Field K] (S : Set P) (coordinate : ι → P → K) (targets : Finset ι) (f : P → K) : Prop :=
  ∃ (c : K) (a : ι → K), ∀ p ∈ S, f p = c + ∑ i ∈ targets, a i * coordinate i p

/-! ## Constant functions -/

section
variable {S : Set P} {f g : P → K}

theorem constantOn_const (c : K) : ConstantOn S fun _ => c := ⟨c, fun _ _ => rfl⟩

theorem ConstantOn.comp (op : K → K) (hf : ConstantOn S f) : ConstantOn S fun p => op (f p) := by
  obtain ⟨c, hc⟩ := hf
  exact ⟨op c, fun p hp => congrArg op (hc p hp)⟩

theorem ConstantOn.comp₂ (op : K → K → K) (hf : ConstantOn S f) (hg : ConstantOn S g) :
    ConstantOn S fun p => op (f p) (g p) := by
  obtain ⟨c, hc⟩ := hf
  obtain ⟨d, hd⟩ := hg
  exact ⟨op c d, fun p hp => congrArg₂ op (hc p hp) (hd p hp)⟩

end

/-! ## Affine functions -/

section
variable [Field K] {S : Set P} {coordinate : ι → P → K} {targets : Finset ι} {f g : P → K}

theorem ConstantOn.sum {κ : Type} {terms : κ → P → K} {s : Finset κ} (h : ∀ k ∈ s, ConstantOn S (terms k)) :
    ConstantOn S fun p => ∑ k ∈ s, terms k p := by
  choose! c hc using h
  exact ⟨∑ k ∈ s, c k, fun p hp => Finset.sum_congr rfl fun k hk => hc k hk p hp⟩

theorem ConstantOn.affineOn (hf : ConstantOn S f) : AffineOn S coordinate targets f := by
  obtain ⟨c, hc⟩ := hf
  refine ⟨c, fun _ => 0, fun p hp => ?_⟩
  have hzero : ∑ i ∈ targets, 0 * coordinate i p = 0 := Finset.sum_eq_zero fun i _ => zero_mul _
  rw [hc p hp, hzero, add_zero]

theorem affineOn_coordinate [DecidableEq ι] {i : ι} (hi : i ∈ targets) :
    AffineOn S coordinate targets (coordinate i) := by
  refine ⟨0, fun j => if j = i then 1 else 0, fun p _ => ?_⟩
  have hsum : ∑ j ∈ targets, (if j = i then 1 else 0) * coordinate j p = coordinate i p := by
    simp only [ite_mul, one_mul, zero_mul, Finset.sum_ite_eq', if_pos hi]
  rw [hsum, zero_add]

theorem AffineOn.add (hf : AffineOn S coordinate targets f) (hg : AffineOn S coordinate targets g) :
    AffineOn S coordinate targets fun p => f p + g p := by
  obtain ⟨c, a, hf⟩ := hf
  obtain ⟨d, b, hg⟩ := hg
  refine ⟨c + d, fun i => a i + b i, fun p hp => ?_⟩
  have hsum : ∑ i ∈ targets, (a i + b i) * coordinate i p =
      ∑ i ∈ targets, a i * coordinate i p + ∑ i ∈ targets, b i * coordinate i p := by
    rw [← Finset.sum_add_distrib]
    exact Finset.sum_congr rfl fun i _ => add_mul _ _ _
  simp only [hf p hp, hg p hp, hsum]
  ring

theorem AffineOn.const_mul (hg : ConstantOn S g) (hf : AffineOn S coordinate targets f) :
    AffineOn S coordinate targets fun p => g p * f p := by
  obtain ⟨d, hd⟩ := hg
  obtain ⟨c, a, hf⟩ := hf
  refine ⟨d * c, fun i => d * a i, fun p hp => ?_⟩
  simp only [hd p hp, hf p hp, mul_add, Finset.mul_sum, mul_assoc]

theorem AffineOn.mul_const (hf : AffineOn S coordinate targets f) (hg : ConstantOn S g) :
    AffineOn S coordinate targets fun p => f p * g p := by
  simpa only [mul_comm] using AffineOn.const_mul hg hf

theorem AffineOn.neg (hf : AffineOn S coordinate targets f) : AffineOn S coordinate targets fun p => -f p := by
  simpa only [neg_one_mul] using AffineOn.const_mul (constantOn_const (-1)) hf

theorem AffineOn.div_const (hf : AffineOn S coordinate targets f) (hg : ConstantOn S g) :
    AffineOn S coordinate targets fun p => f p / g p := by
  simpa only [div_eq_mul_inv] using hf.mul_const (hg.comp (·⁻¹))

theorem AffineOn.sum {κ : Type} {terms : κ → P → K} {s : Finset κ}
    (h : ∀ k ∈ s, AffineOn S coordinate targets (terms k)) :
    AffineOn S coordinate targets fun p => ∑ k ∈ s, terms k p := by
  choose! c a hc using h
  refine ⟨∑ k ∈ s, c k, fun i => ∑ k ∈ s, a k i, fun p hp => ?_⟩
  have hswap : ∑ i ∈ targets, (∑ k ∈ s, a k i) * coordinate i p =
      ∑ k ∈ s, ∑ i ∈ targets, a k i * coordinate i p := by
    rw [Finset.sum_comm]
    exact Finset.sum_congr rfl fun i _ => Finset.sum_mul _ _ _
  rw [hswap, ← Finset.sum_add_distrib]
  exact Finset.sum_congr rfl fun k hk => hc k hk p hp

end

end Rumoca.Lib
