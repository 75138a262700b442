import Rumoca.Core.ClockRational
/-!
# Clock rationals are exact

Sums, products and quotients of canonical values are canonical and exact, and
an error of a product or quotient says that no canonical value is the result,
with one exception: a quotient with numerator `i128::MIN` whose magnitude the
code computes with a positive sign. Comparison is that of the rationals.
-/

namespace Rumoca.Core

open Rumoca.Lib

namespace ClockRational

open LatticeResult

/-! ## Magnitudes -/

def signed (n : Nat) (negative : Bool) : Int := if negative then -n else n

def Representable (q : ℚ) : Prop := IsI128 q.num ∧ (q.den : Int) < i128Limit

theorem checkedI128_of (z : Int) (h : IsI128 z) : checkedI128 z = some z := if_pos h

theorem checkedI128_of_not (z : Int) (h : ¬ IsI128 z) : checkedI128 z = none := if_neg h

theorem gcdU128_eq (a b : Nat) : gcdU128 a b = some (if a.gcd b = 0 then 1 else a.gcd b) := by
  obtain ⟨r, hr, hpost⟩ := loop_spec gcdTurn (fun s => s.1.gcd s.2 = a.gcd b) (fun s => s.2)
    (fun r => r = if a.gcd b = 0 then 1 else a.gcd b)
    (fun s hs => by
      unfold gcdTurn
      split
      · next hne =>
        refine .inl ⟨_, rfl, ?_, Nat.mod_lt _ (Nat.pos_of_ne_zero hne)⟩
        rw [← hs, Nat.gcd_comm s.1 s.2]
        exact (Nat.gcd_comm _ _).trans (Nat.gcd_rec s.2 s.1).symm
      · next hzero =>
        refine .inr ⟨_, rfl, ?_⟩
        rw [← hs, not_not.mp hzero, Nat.gcd_zero_right])
    (b + 1) (a, b) rfl (Nat.lt_succ_self b)
  rw [gcdU128, hr, hpost]

theorem gcdU128_of_pos {a b : Nat} (h : 0 < b) : gcdU128 a b = some (a.gcd b) := by
  rw [gcdU128_eq, if_neg (Nat.gcd_pos_of_pos_right a h).ne']

theorem positiveFromMagnitude_eq (n : Nat) : positiveFromMagnitude n = orOverflow (checkedI128 n) := rfl

theorem signedFromMagnitude_eq (value : Nat) (negative : Bool) :
    signedFromMagnitude value negative = orOverflow (checkedI128 (signed value negative)) := by
  unfold signedFromMagnitude signed
  cases negative with
  | false => simp only [Bool.not_false, Bool.false_eq_true, if_false, if_true, positiveFromMagnitude_eq]
  | true =>
    simp only [Bool.not_true, Bool.false_eq_true, if_false, if_true]
    split
    · next hmin =>
      have hlimit : -(value : Int) = -i128Limit := by
        rw [hmin]
        norm_num [i128Limit]
      rw [hlimit, checkedI128_of _ (by unfold IsI128 i128Limit; norm_num)]
      rfl
    · next hne =>
      rw [positiveFromMagnitude_eq]
      by_cases hn : IsI128 value
      · have hneg : IsI128 (-(value : Int)) := by
          unfold IsI128 i128Limit at hn ⊢
          omega
        rw [checkedI128_of _ hn, checkedI128_of _ hneg]
        simp [checkedI128_of _ hneg]
      · have hneg : ¬ IsI128 (-(value : Int)) := by
          unfold IsI128 i128Limit at hn ⊢
          omega
        rw [checkedI128_of_not _ hn, checkedI128_of_not _ hneg]
        rfl

theorem divideU128_mul {n g : Nat} (hg : 0 < g) : divideU128 (n * g) g = some n := by
  rw [divideU128, if_neg hg.ne', Nat.mul_div_cancel _ hg]

theorem natAbs_signed (n : Nat) (negative : Bool) : (signed n negative).natAbs = n := by
  cases negative <;> simp [signed]

theorem signed_mul (n g : Nat) (negative : Bool) : signed (n * g) negative = signed n negative * g := by
  cases negative <;> simp [signed]

theorem canonical_zero : zero.Canonical :=
  ⟨by unfold IsI128 i128Limit zero; norm_num, by decide, by unfold i128Limit zero; norm_num, by decide⟩

theorem lowest_terms {z : Int} {d : Nat} (hd : 0 < d) (h : Nat.Coprime z.natAbs d) :
    ((z : ℚ) / (d : Int)).num = z ∧ ((((z : ℚ) / (d : Int)).den : Nat) : Int) = d :=
  ⟨Rat.num_div_eq_of_coprime (by exact_mod_cast hd) (by simpa using h),
    Rat.den_div_eq_of_coprime (by exact_mod_cast hd) (by simpa using h)⟩

theorem fromSignedMagnitude_spec (n : Nat) (negative : Bool) {d : Nat} (hd : 0 < d) :
    Outcome (fromSignedMagnitude n negative d)
      (fun r => r.Canonical ∧ r.value = (signed n negative : ℚ) / (d : Int))
      (fun _ => ¬ Representable ((signed n negative : ℚ) / (d : Int))) := by
  unfold fromSignedMagnitude
  split
  · next hzero =>
    subst hzero
    refine .pure ⟨canonical_zero, ?_⟩
    cases negative <;> simp [value, zero, signed]
  obtain ⟨n', d', hcoprime, hn, hd'⟩ := Nat.exists_coprime n d
  have hg : 0 < n.gcd d := Nat.gcd_pos_of_pos_right n hd
  have hdpos : 0 < d' := Nat.pos_of_mul_pos_right (hd' ▸ hd)
  rw [gcdU128_of_pos hd]
  generalize n.gcd d = g at hn hd' hg
  subst hn hd'
  have hvalue : (signed (n' * g) negative : ℚ) / ((d' * g : Nat) : Int) = (signed n' negative : ℚ) / (d' : Int) := by
    rw [signed_mul]
    push_cast
    exact mul_div_mul_right _ _ (by exact_mod_cast hg.ne')
  obtain ⟨hnum, hden⟩ := lowest_terms (z := signed n' negative) hdpos (by rwa [natAbs_signed])
  rw [hvalue, orAbort_some, pure_bind, divideU128_mul hg, divideU128_mul hg, orAbort_some, pure_bind,
    signedFromMagnitude_eq]
  by_cases hrange : IsI128 (signed n' negative)
  · rw [checkedI128_of _ hrange, orOverflow_some, pure_bind, orAbort_some, pure_bind, positiveFromMagnitude_eq]
    by_cases hdrange : IsI128 d'
    · rw [checkedI128_of _ hdrange, orOverflow_some, pure_bind]
      exact .pure ⟨⟨hrange, Int.natCast_pos.mpr hdpos, hdrange.2, by simpa [natAbs_signed] using hcoprime⟩, rfl⟩
    · rw [checkedI128_of_not _ hdrange]
      refine .throw fun hrep => hdrange ⟨?_, hden ▸ hrep.2⟩
      have : 0 ≤ i128Limit := by decide
      omega
  · rw [checkedI128_of_not _ hrange]
    exact .throw fun hrep => hrange (hnum ▸ hrep.1)

theorem signed_natAbs (z : Int) : signed z.natAbs (decide (z < 0)) = z := by
  unfold signed
  split
  · next h =>
    have := of_decide_eq_true h
    omega
  · next h =>
    have : ¬ z < 0 := fun hneg => h (decide_eq_true hneg)
    omega

theorem reduce_spec (num : Int) {den : Int} (hden : den ≠ 0) :
    Outcome (reduce num den) (fun r => r.Canonical ∧ r.value = (num : ℚ) / den)
      (fun _ => ¬ Representable ((num : ℚ) / den)) := by
  unfold reduce
  rw [if_neg hden]
  split
  · next hzero =>
    subst hzero
    exact .pure ⟨canonical_zero, by simp [value, zero]⟩
  have hvalue : ((signed num.natAbs (decide (num < 0) != decide (den < 0)) : Int) : ℚ) / ((den.natAbs : Nat) : Int) =
      (num : ℚ) / den := by
    have hnum : (num : ℚ) = signed num.natAbs (decide (num < 0)) := by rw [signed_natAbs]
    have hdenominator : (den : ℚ) = signed den.natAbs (decide (den < 0)) := by rw [signed_natAbs]
    rw [hnum, hdenominator]
    cases decide (num < 0) <;> cases decide (den < 0) <;> simp [signed, neg_div, div_neg]
  rw [← hvalue]
  exact fromSignedMagnitude_spec _ _ (Int.natAbs_pos.mpr hden)

/-! ## Division without a remainder -/

theorem asU128_of_range {z : Int} (h : 0 ≤ z) (hlt : z < i128Limit) : asU128 z = z.natAbs := by
  have hsmall : z < u128Limit := hlt.trans (by unfold i128Limit u128Limit; norm_num)
  rw [asU128, Int.emod_eq_of_lt h hsmall]
  omega

theorem natAbs_le_of_mul {z z' : Int} {g : Nat} (hg : 0 < g) (h : z = z' * g) : z'.natAbs ≤ z.natAbs := by
  rw [h, Int.natAbs_mul, Int.natAbs_natCast]
  exact Nat.le_mul_of_pos_right _ hg

theorem neg_iff_of_mul {z z' : Int} {g : Nat} (hg : 0 < g) (h : z = z' * g) : z < 0 ↔ z' < 0 := by
  have hg' : (0 : Int) < g := by exact_mod_cast hg
  rw [h]
  exact ⟨fun hlt => neg_of_mul_neg_left hlt hg'.le, fun hlt => mul_neg_of_neg_of_pos hlt hg'⟩

theorem divideSignedByUnsigned_eq {z z' : Int} {g : Nat} (hz : IsI128 z) (hg : 0 < g) (h : z = z' * g) :
    divideSignedByUnsigned z g = pure z' := by
  have hle := natAbs_le_of_mul hg h
  have hneg := neg_iff_of_mul hg h
  have hrange : IsI128 z' := by
    unfold IsI128 at hz ⊢
    omega
  have hnat : z.natAbs = z'.natAbs * g := by rw [h, Int.natAbs_mul, Int.natAbs_natCast]
  rw [divideSignedByUnsigned, hnat, divideU128_mul hg, orAbort_some, pure_bind, signedFromMagnitude_eq,
    decide_eq_decide.mpr hneg, signed_natAbs, checkedI128_of _ hrange, orOverflow_some]

theorem dividePositiveByUnsigned_eq {d d' g : Nat} (hpos : 0 < d) (hlt : (d : Int) < i128Limit) (hg : 0 < g)
    (h : d = d' * g) : dividePositiveByUnsigned d g = pure (d' : Int) := by
  have hle : d' ≤ d := h ▸ Nat.le_mul_of_pos_right _ hg
  have hrange : IsI128 d' := ⟨by have : 0 ≤ i128Limit := by unfold i128Limit; norm_num
                                 omega, by omega⟩
  rw [dividePositiveByUnsigned, if_neg (by omega), asU128_of_range (by omega) hlt, Int.natAbs_natCast, h,
    divideU128_mul hg, orAbort_some, pure_bind, positiveFromMagnitude_eq, checkedI128_of _ hrange, orOverflow_some]

theorem exists_coprime_int (z : Int) {n : Nat} (hn : 0 < n) : ∃ (z' : Int) (n' : Nat), Nat.Coprime z'.natAbs n' ∧
    z = z' * (z.natAbs.gcd n : Nat) ∧ n = n' * z.natAbs.gcd n ∧ 0 < n' ∧ 0 < z.natAbs.gcd n := by
  obtain ⟨m, n', hcoprime, hm, hn'⟩ := Nat.exists_coprime z.natAbs n
  have hg : 0 < z.natAbs.gcd n := Nat.gcd_pos_of_pos_right _ hn
  refine ⟨signed m (decide (z < 0)), n', by rwa [natAbs_signed], ?_, hn', Nat.pos_of_mul_pos_right (hn' ▸ hn), hg⟩
  rw [← signed_mul, ← hm, signed_natAbs]

theorem Canonical.exists_nat {r : ClockRational} (h : r.Canonical) : ∃ d : Nat, r.den = d ∧ 0 < d ∧
    (d : Int) < i128Limit ∧ Nat.Coprime r.num.natAbs d ∧ asU128 r.den = d ∧ r.value = (r.num : ℚ) / d := by
  have hpos := h.den_pos
  have hd : r.den = r.den.natAbs := by omega
  refine ⟨r.den.natAbs, hd, by omega, hd ▸ h.den_lt, h.coprime, asU128_of_range hpos.le h.den_lt, ?_⟩
  rw [value, ← Int.cast_natCast (R := ℚ), ← hd]

/-! ## Products -/

def reduceChecked (num den : Int) : LatticeResult ClockRational := do
  let num ← orOverflow (checkedI128 num)
  let den ← orOverflow (checkedI128 den)
  reduce num den

theorem reduceChecked_spec (num : Int) {den : Int} (hden : den ≠ 0) :
    Outcome (reduceChecked num den) (fun r => r.Canonical ∧ r.value = (num : ℚ) / den)
      (fun _ => ¬ Representable ((num : ℚ) / den) ∨ ¬ IsI128 num ∨ ¬ IsI128 den) := by
  unfold reduceChecked
  by_cases hn : IsI128 num
  · by_cases hd : IsI128 den
    · rw [checkedI128_of _ hn, checkedI128_of _ hd, orOverflow_some, pure_bind, orOverflow_some, pure_bind]
      exact (reduce_spec num hden).mono (fun _ h => h) fun _ h => .inl h
    · rw [checkedI128_of _ hn, checkedI128_of_not _ hd, orOverflow_some, pure_bind]
      exact .throw (.inr (.inr hd))
  · rw [checkedI128_of_not _ hn]
    exact .throw (.inr (.inl hn))

theorem coprime_of_mul {z z' : Int} {d d' g g' : Nat} (h : Nat.Coprime z.natAbs d) (hz : z = z' * g) (hd : d = d' * g') :
    Nat.Coprime z'.natAbs d' := by
  refine Nat.Coprime.coprime_dvd_left ⟨g, ?_⟩ (Nat.Coprime.coprime_dvd_right ⟨g', hd⟩ h)
  rw [hz, Int.natAbs_mul, Int.natAbs_natCast]

theorem mul_spec {a b : ClockRational} (ha : a.Canonical) (hb : b.Canonical) :
    Outcome (checkedMul a b) (fun r => r.Canonical ∧ r.value = a.value * b.value)
      (fun _ => ¬ Representable (a.value * b.value)) := by
  obtain ⟨d₁, hd₁, hpos₁, hlt₁, hcop₁, has₁, hval₁⟩ := ha.exists_nat
  obtain ⟨d₂, hd₂, hpos₂, hlt₂, hcop₂, has₂, hval₂⟩ := hb.exists_nat
  unfold checkedMul
  split
  · next hzero =>
    refine .pure ⟨canonical_zero, ?_⟩
    simp only [isZero, Bool.or_eq_true, decide_eq_true_eq] at hzero
    rcases hzero with h | h <;> simp [value, zero, h]
  rw [has₁, has₂, hd₁, hd₂, hval₁, hval₂, gcdU128_of_pos hpos₂, gcdU128_of_pos hpos₁]
  obtain ⟨n₁, e₂, hcross₁, hn₁, he₂, hepos₂, hg₁⟩ := exists_coprime_int a.num hpos₂
  obtain ⟨n₂, e₁, hcross₂, hn₂, he₁, hepos₁, hg₂⟩ := exists_coprime_int b.num hpos₁
  simp only [orAbort_some, pure_bind, divideSignedByUnsigned_eq ha.num_range hg₁ hn₁,
    divideSignedByUnsigned_eq hb.num_range hg₂ hn₂, dividePositiveByUnsigned_eq hpos₁ hlt₁ hg₂ he₁,
    dividePositiveByUnsigned_eq hpos₂ hlt₂ hg₁ he₂]
  have hcop : Nat.Coprime (n₁ * n₂).natAbs (e₁ * e₂) := by
    rw [Int.natAbs_mul]
    exact .mul_left (.mul_right (coprime_of_mul hcop₁ hn₁ he₁) hcross₁)
      (.mul_right hcross₂ (coprime_of_mul hcop₂ hn₂ he₂))
  have hvalue : (a.num : ℚ) / d₁ * ((b.num : ℚ) / d₂) = ((n₁ * n₂ : Int) : ℚ) / (((e₁ * e₂ : Nat) : Int) : ℚ) := by
    generalize a.num.natAbs.gcd d₂ = g₁ at hn₁ he₂ hg₁
    generalize b.num.natAbs.gcd d₁ = g₂ at hn₂ he₁ hg₂
    rw [hn₁, hn₂, he₁, he₂]
    push_cast
    field_simp
  obtain ⟨hnum, hden⟩ := lowest_terms (Nat.mul_pos hepos₁ hepos₂) hcop
  rw [hvalue, ← Nat.cast_mul]
  refine (reduceChecked_spec (n₁ * n₂) (by exact_mod_cast (Nat.mul_pos hepos₁ hepos₂).ne')).mono (fun _ h => h) ?_
  rintro _ (h | h | h) hrep
  · exact h hrep
  · exact h (hnum ▸ hrep.1)
  · refine h ⟨?_, hden ▸ hrep.2⟩
    have : 0 ≤ i128Limit := by unfold i128Limit; norm_num
    omega

/-! ## Quotients -/

/-- A positive value over a negative one, with `i128::MIN` as the numerator of the quotient. -/
structure DivOverflows (a b : ClockRational) : Prop where
  positive : 0 < a.num
  negative : b.num < 0
  num : (a.value / b.value).num = -i128Limit
  den : ((a.value / b.value).den : Int) < i128Limit

theorem div_terms {a b : ClockRational} (ha : a.Canonical) (hb : b.Canonical) (ha0 : a.num ≠ 0) (hb0 : b.num ≠ 0) :
    ∃ num den : Int, checkedDiv a b = reduceChecked num den ∧ den ≠ 0 ∧ a.value / b.value = (num : ℚ) / den ∧
      (0 < num ↔ 0 < a.num) ∧ (den < 0 ↔ b.num < 0) ∧
      (a.value / b.value).num = (if den < 0 then -num else num) ∧ ((a.value / b.value).den : Int) = den.natAbs := by
  obtain ⟨d₁, hd₁, hpos₁, hlt₁, hcop₁, has₁, hval₁⟩ := ha.exists_nat
  obtain ⟨d₂, hd₂, hpos₂, hlt₂, hcop₂, has₂, hval₂⟩ := hb.exists_nat
  obtain ⟨n₁, m, hcross, hn₁, hm, hmpos, hg⟩ := exists_coprime_int a.num (Int.natAbs_pos.mpr hb0)
  obtain ⟨e₁, e₂, hcross', he₁, he₂⟩ := Nat.exists_coprime d₁ d₂
  have hg' : 0 < d₁.gcd d₂ := Nat.gcd_pos_of_pos_right _ hpos₂
  -- the other numerator without the common factor
  obtain ⟨n₂, hn₂, hnat₂⟩ : ∃ n₂ : Int, b.num = n₂ * (a.num.natAbs.gcd b.num.natAbs : Nat) ∧ n₂.natAbs = m :=
    ⟨signed m (decide (b.num < 0)), by rw [← signed_mul, ← hm, signed_natAbs], natAbs_signed m _⟩
  have hepos₁ : 0 < e₁ := Nat.pos_of_mul_pos_right (he₁ ▸ hpos₁)
  have hepos₂ : 0 < e₂ := Nat.pos_of_mul_pos_right (he₂ ▸ hpos₂)
  have hsign : n₂ < 0 ↔ b.num < 0 := (neg_iff_of_mul hg hn₂).symm
  have hn₂ne : n₂ ≠ 0 := by omega
  have hdiv : checkedDiv a b = reduceChecked (n₁ * e₂) (e₁ * n₂) := by
    rw [checkedDiv, if_neg (by simpa [isZero] using hb0), if_neg (by simpa [isZero] using ha0),
      gcdU128_of_pos (Int.natAbs_pos.mpr hb0), has₁, has₂, gcdU128_of_pos hpos₂, hd₁, hd₂]
    simp only [orAbort_some, pure_bind, divideSignedByUnsigned_eq ha.num_range hg hn₁,
      divideSignedByUnsigned_eq hb.num_range hg hn₂, dividePositiveByUnsigned_eq hpos₁ hlt₁ hg' he₁,
      dividePositiveByUnsigned_eq hpos₂ hlt₂ hg' he₂]
    rfl
  have hcop : Nat.Coprime n₁.natAbs e₁ := coprime_of_mul hcop₁ hn₁ he₁
  have hcop' : Nat.Coprime m e₂ := by
    have := coprime_of_mul hcop₂ hn₂ he₂
    rwa [hnat₂] at this
  have hpositive : 0 < n₁ ↔ 0 < a.num := by
    have := neg_iff_of_mul hg hn₁
    have hne : n₁ ≠ 0 := by
      rintro rfl
      exact ha0 (by rw [hn₁, Int.zero_mul])
    omega
  have hvalue : a.value / b.value = ((n₁ * e₂ : Int) : ℚ) / ((e₁ * n₂ : Int) : ℚ) := by
    rw [hval₁, hval₂]
    generalize a.num.natAbs.gcd b.num.natAbs = g at hn₁ hn₂ hg
    generalize d₁.gcd d₂ = g' at he₁ he₂ hg'
    rw [hn₁, hn₂, he₁, he₂]
    push_cast
    field_simp
  refine ⟨n₁ * e₂, e₁ * n₂, hdiv, mul_ne_zero (by exact_mod_cast hepos₁.ne') hn₂ne, hvalue, ?_, ?_, ?_⟩
  · rw [← hpositive]
    exact mul_pos_iff_of_pos_right (by exact_mod_cast hepos₂)
  · rw [← hsign]
    exact ⟨fun h => neg_of_mul_neg_right h (Int.natCast_nonneg _),
      fun h => mul_neg_of_pos_of_neg (by exact_mod_cast hepos₁) h⟩
  · have hnat : (e₁ * n₂ : Int).natAbs = e₁ * m := by rw [Int.natAbs_mul, Int.natAbs_natCast, hnat₂]
    -- the sign of the denominator goes to the numerator
    obtain ⟨z, hz⟩ : ∃ z : Int, z = if (e₁ * n₂ : Int) < 0 then -(n₁ * e₂ : Int) else n₁ * e₂ := ⟨_, rfl⟩
    have hq : a.value / b.value = (z : ℚ) / (((e₁ * m : Nat) : Int) : ℚ) := by
      rw [hvalue, ← hnat, hz]
      split
      · next hneg =>
        rw [show (((e₁ * n₂ : Int).natAbs : Nat) : Int) = -(e₁ * n₂) by omega, Int.cast_neg, Int.cast_neg,
          neg_div_neg_eq]
      · next hpos => rw [show (((e₁ * n₂ : Int).natAbs : Nat) : Int) = e₁ * n₂ by omega]
    have habs : z.natAbs = n₁.natAbs * e₂ := by
      rw [hz]
      split <;> simp [Int.natAbs_mul]
    have hcoprime : Nat.Coprime z.natAbs (e₁ * m) := by
      rw [habs]
      exact .mul_left (.mul_right hcop hcross) (.mul_right hcross'.symm hcop'.symm)
    obtain ⟨hnum, hden⟩ := lowest_terms (Nat.mul_pos hepos₁ hmpos) hcoprime
    rw [← hq] at hnum hden
    exact ⟨hnum.trans hz, by rw [hden, hnat]⟩

theorem div_spec {a b : ClockRational} (ha : a.Canonical) (hb : b.Canonical) (hb0 : b.num ≠ 0) :
    Outcome (checkedDiv a b) (fun r => r.Canonical ∧ r.value = a.value / b.value)
      (fun _ => ¬ Representable (a.value / b.value) ∨ DivOverflows a b) := by
  by_cases ha0 : a.num = 0
  · rw [checkedDiv, if_neg (by simpa [isZero] using hb0), if_pos (by simpa [isZero] using ha0)]
    exact .pure ⟨canonical_zero, by simp [value, zero, ha0]⟩
  obtain ⟨num, den, hdiv, hden0, hvalue, hpositive, hnegative, hnum, hden⟩ := div_terms ha hb ha0 hb0
  rw [hdiv]
  refine (reduceChecked_spec num hden0).mono (fun r h => ⟨h.1, h.2.trans hvalue.symm⟩) ?_
  rintro _ (h | h | h)
  · exact .inl (hvalue ▸ h)
  · by_cases hneg : den < 0
    · rw [if_pos hneg] at hnum
      by_cases hrep : Representable (a.value / b.value)
      · -- only `i128::MIN` fits with the sign and not without
        have hrange := hrep.1
        unfold IsI128 at h hrange
        have hmin : num = i128Limit := by omega
        have : 0 < i128Limit := by unfold i128Limit; norm_num
        exact .inr ⟨hpositive.mp (by omega), hnegative.mp hneg, by omega, hrep.2⟩
      · exact .inl hrep
    · rw [if_neg hneg] at hnum
      exact .inl fun hrep => h (hnum ▸ hrep.1)
  · refine .inl fun hrep => h ?_
    have := hrep.2
    unfold IsI128
    omega

theorem div_overflow {a b : ClockRational} (ha : a.Canonical) (hb : b.Canonical) (h : DivOverflows a b) :
    checkedDiv a b = throw .integerOverflow := by
  have := h.positive
  have := h.negative
  obtain ⟨num, den, hdiv, -, -, -, hnegative, hnum, -⟩ := div_terms ha hb (by omega) (by omega)
  rw [if_pos (hnegative.mpr h.negative), h.num] at hnum
  have hrange : ¬ IsI128 num := by
    unfold IsI128
    omega
  rw [hdiv, reduceChecked, checkedI128_of_not _ hrange]
  rfl

/-! ## Sums and differences -/

def operand (b : ClockRational) (subtract : Bool) : ℚ := if subtract then -b.value else b.value

theorem signed_bne (z : Int) (subtract : Bool) :
    signed z.natAbs (decide (z < 0) != subtract) = if subtract then -z else z := by
  by_cases hz : z < 0
  · rw [decide_eq_true hz]
    cases subtract
    · change -(z.natAbs : Int) = z
      omega
    · change (z.natAbs : Int) = -z
      omega
  · rw [decide_eq_false hz]
    cases subtract
    · change (z.natAbs : Int) = z
      omega
    · change -(z.natAbs : Int) = -z
      omega

theorem sameDenominator_spec {a b : ClockRational} (ha : a.Canonical) (hden : a.den = b.den)
    (subtract : Bool) : Outcome (checkedSameDenominator a b subtract)
      (fun r => r.Canonical ∧ r.value = a.value + b.operand subtract) (fun _ => True) := by
  obtain ⟨d, hd, hpos, -, -, has, hval⟩ := ha.exists_nat
  have hvalb : b.value = (b.num : ℚ) / d := by
    rw [value, ← hden, hd, Int.cast_natCast]
  have hsum : ∀ z : Int, z = a.num + (if subtract then -b.num else b.num) →
      (z : ℚ) / ((d : Nat) : Int) = a.value + b.operand subtract := by
    rintro z rfl
    rw [hval, operand, hvalb]
    cases subtract <;> simp only [Bool.false_eq_true, if_true, if_false] <;> push_cast <;> ring
  have hleft := signed_natAbs a.num
  have hright := signed_bne b.num subtract
  unfold checkedSameDenominator
  rw [has]
  dsimp only
  generalize decide (a.num < 0) = lhsNegative at hleft ⊢
  generalize (decide (b.num < 0) != subtract) = rhsNegative at hright ⊢
  have hmagnitude : ∀ (n : Nat) (negative : Bool), signed n negative = a.num + (if subtract then -b.num else b.num) →
      Outcome (fromSignedMagnitude n negative d) (fun r => r.Canonical ∧ r.value = a.value + b.operand subtract)
        (fun _ => True) := fun n negative h => by
    refine (fromSignedMagnitude_spec n negative hpos).mono (fun r hr => ⟨hr.1, hr.2.trans (hsum _ h)⟩) fun _ _ => trivial
  rw [← hleft, ← hright] at hmagnitude
  by_cases heq : lhsNegative = rhsNegative
  · rw [if_pos heq]
    subst heq
    cases hsmall : checkedU128 (a.num.natAbs + b.num.natAbs) with
    | none => exact .throw trivial
    | some n =>
      obtain rfl : a.num.natAbs + b.num.natAbs = n := by
        unfold checkedU128 at hsmall
        split at hsmall
        · exact Option.some.inj hsmall
        · cases hsmall
      refine hmagnitude _ _ ?_
      cases lhsNegative <;> simp only [signed] <;> push_cast <;> omega
  · rw [if_neg heq]
    obtain rfl : rhsNegative = !lhsNegative := by
      cases lhsNegative <;> cases rhsNegative <;> simp at heq ⊢
    by_cases hle : b.num.natAbs ≤ a.num.natAbs
    · rw [if_pos hle]
      refine hmagnitude _ _ ?_
      cases lhsNegative <;> simp only [signed, Bool.not_true, Bool.not_false, Bool.false_eq_true, if_true, if_false] <;>
        omega
    · rw [if_neg hle]
      refine hmagnitude _ _ ?_
      cases lhsNegative <;> simp only [signed, Bool.not_true, Bool.not_false, Bool.false_eq_true, if_true, if_false] <;>
        omega

theorem divideI128_eq {d d' g : Nat} (hg : 0 < g) (h : d = d' * g) (hlt : (d : Int) < i128Limit) :
    divideI128 d g = some (d' : Int) := by
  have hle : d' ≤ d := h ▸ Nat.le_mul_of_pos_right _ hg
  have hrange : IsI128 d' := by
    have : 0 ≤ i128Limit := by unfold i128Limit; norm_num
    unfold IsI128
    omega
  have hdiv : (d : Int).tdiv g = d' := by
    rw [h, Int.natCast_mul]
    exact Int.mul_tdiv_cancel _ (by exact_mod_cast hg.ne')
  rw [divideI128, if_neg (by exact_mod_cast hg.ne'), hdiv, checkedI128_of _ hrange]

theorem combine_spec {a b : ClockRational} (ha : a.Canonical) (hb : b.Canonical) (subtract : Bool) :
    Outcome (checkedCombine a b subtract) (fun r => r.Canonical ∧ r.value = a.value + b.operand subtract)
      (fun _ => True) := by
  unfold checkedCombine
  split
  · next hden => exact sameDenominator_spec ha hden subtract
  obtain ⟨d₁, hd₁, hpos₁, hlt₁, -, has₁, hval₁⟩ := ha.exists_nat
  obtain ⟨d₂, hd₂, hpos₂, hlt₂, -, has₂, hval₂⟩ := hb.exists_nat
  obtain ⟨e₁, e₂, -, he₁, he₂⟩ := Nat.exists_coprime d₁ d₂
  have hg : 0 < d₁.gcd d₂ := Nat.gcd_pos_of_pos_right _ hpos₂
  have hgrange : IsI128 (d₁.gcd d₂ : Nat) := by
    have : d₁.gcd d₂ ≤ d₁ := Nat.gcd_le_left d₂ hpos₁
    have : 0 ≤ i128Limit := by unfold i128Limit; norm_num
    unfold IsI128
    omega
  rw [has₁, has₂, hd₁, hd₂, gcdU128_of_pos hpos₂, orAbort_some, pure_bind, positiveFromMagnitude_eq,
    checkedI128_of _ hgrange, orOverflow_some, pure_bind, divideI128_eq hg he₂ hlt₂, divideI128_eq hg he₁ hlt₁,
    orAbort_some, pure_bind, orAbort_some, pure_bind]
  -- each product may overflow
  have hchecked : ∀ {f : Int → LatticeResult ClockRational} (z : Int),
      Outcome (f z) (fun r => r.Canonical ∧ r.value = a.value + b.operand subtract) (fun _ => True) →
      Outcome (orOverflow (checkedI128 z) >>= f) (fun r => r.Canonical ∧ r.value = a.value + b.operand subtract)
        (fun _ => True) := fun {f} z h => by
    by_cases hz : IsI128 z
    · rwa [checkedI128_of _ hz, orOverflow_some, pure_bind]
    · rw [checkedI128_of_not _ hz]
      exact .throw trivial
  refine hchecked _ (hchecked _ (hchecked _ (hchecked _ ?_)))
  have hepos₂ : 0 < e₂ := Nat.pos_of_mul_pos_right (he₂ ▸ hpos₂)
  refine (reduce_spec _ (by exact_mod_cast (Nat.mul_pos hpos₁ hepos₂).ne')).mono (fun r hr => ⟨hr.1, hr.2.trans ?_⟩)
    fun _ _ => trivial
  rw [hval₁, operand, hval₂]
  have hd₁ne : (d₁ : ℚ) ≠ 0 := by exact_mod_cast hpos₁.ne'
  have hd₂ne : (d₂ : ℚ) ≠ 0 := by exact_mod_cast hpos₂.ne'
  have he₂ne : (e₂ : ℚ) ≠ 0 := by exact_mod_cast hepos₂.ne'
  have hcross : (d₁ : ℚ) * e₂ = d₂ * e₁ := by
    have : d₁ * e₂ = d₂ * e₁ := by
      calc d₁ * e₂ = e₁ * d₁.gcd d₂ * e₂ := by rw [← he₁]
        _ = e₂ * d₁.gcd d₂ * e₁ := by ring
        _ = d₂ * e₁ := by rw [← he₂]
    exact_mod_cast this
  have hleft : (a.num : ℚ) / d₁ = a.num * e₂ / (d₁ * e₂) := by field_simp
  have hright : (b.num : ℚ) / d₂ = b.num * e₁ / (d₁ * e₂) := by
    have he₁ne : (e₁ : ℚ) ≠ 0 := by exact_mod_cast (Nat.pos_of_mul_pos_right (he₁ ▸ hpos₁)).ne'
    rw [hcross]
    field_simp
  rw [hleft, hright]
  cases subtract <;> simp only [Bool.false_eq_true, if_true, if_false] <;> push_cast <;> ring

/-! ## Comparison -/

theorem compare_of_div_ne {n d n' d' : Nat} (hd : 0 < d) (hd' : 0 < d') (h : n / d ≠ n' / d') :
    compare (n * d') (n' * d) = compare (n / d) (n' / d') := by
  have hlt : ∀ {n d n' d' : Nat}, 0 < d → 0 < d' → n / d < n' / d' → n * d' < n' * d := fun {n d n' d'} hd hd' hlt => by
    have hn : n < (n / d + 1) * d := Nat.lt_mul_of_div_lt (Nat.lt_succ_self _) hd
    calc n * d' < (n / d + 1) * d * d' := Nat.mul_lt_mul_of_pos_right hn hd'
      _ ≤ n' / d' * d * d' := Nat.mul_le_mul_right _ (Nat.mul_le_mul_right _ hlt)
      _ = n' / d' * d' * d := by ring
      _ ≤ n' * d := Nat.mul_le_mul_right _ (Nat.div_mul_le_self n' d')
  rcases Nat.lt_or_gt_of_ne h with h | h
  · rw [compare_lt_iff_lt.mpr h, compare_lt_iff_lt.mpr (hlt hd hd' h)]
  · rw [compare_gt_iff_gt.mpr h, compare_gt_iff_gt.mpr (hlt hd' hd h)]

theorem compare_of_div_eq {n d n' d' : Nat} (h : n / d = n' / d') :
    compare (n * d') (n' * d) = compare (n % d * d') (n' % d' * d) := by
  have hn : n * d' = n / d * d * d' + n % d * d' := by
    rw [← Nat.add_mul, Nat.mul_comm (n / d), Nat.div_add_mod]
  have hn' : n' * d = n / d * d * d' + n' % d' * d := by
    rw [h, Nat.mul_right_comm, ← Nat.add_mul, Nat.mul_comm (n' / d'), Nat.div_add_mod]
  rw [hn, hn']
  rcases lt_trichotomy (n % d * d') (n' % d' * d) with hlt | heq | hgt
  · rw [compare_lt_iff_lt.mpr hlt, compare_lt_iff_lt.mpr (Nat.add_lt_add_left hlt _)]
  · rw [heq, compare_eq_iff_eq.mpr rfl, compare_eq_iff_eq.mpr rfl]
  · rw [compare_gt_iff_gt.mpr hgt, compare_gt_iff_gt.mpr (Nat.add_lt_add_left hgt _)]

/-- Each turn strips an integer part; the left denominator falls to the remainder. -/
theorem compareLoop_eq (fuel : Nat) {s : Fractions} (hl : 0 < s.lhsDen) (hr : 0 < s.rhsDen) (hfuel : s.lhsDen < fuel) :
    loop compareTurn fuel s = some (s.answer (compare (s.lhsNum * s.rhsDen) (s.rhsNum * s.lhsDen))) := by
  induction fuel generalizing s with
  | zero => omega
  | succ fuel ih =>
    by_cases hinteger : s.lhsNum / s.lhsDen = s.rhsNum / s.rhsDen
    · rw [compare_of_div_eq hinteger]
      have hturn : compareTurn s = some (bif decide (s.lhsNum % s.lhsDen = 0) then
            bif decide (s.rhsNum % s.rhsDen = 0) then .done .eq else .done (if s.reversed then .gt else .lt)
          else bif decide (s.rhsNum % s.rhsDen = 0) then .done (if s.reversed then .lt else .gt)
          else .next ⟨s.lhsDen, s.lhsNum % s.lhsDen, s.rhsDen, s.rhsNum % s.rhsDen, !s.reversed⟩) := by
        rw [compareTurn, divideU128, if_neg hl.ne', divideU128, if_neg hr.ne']
        simp only [Option.bind_eq_bind, Option.bind_some, hinteger, ne_eq, not_true_eq_false, if_false]
        cases decide (s.lhsNum % s.lhsDen = 0) <;> cases decide (s.rhsNum % s.rhsDen = 0) <;> rfl
      rw [loop, hturn]
      by_cases hlr : s.lhsNum % s.lhsDen = 0 <;> by_cases hrr : s.rhsNum % s.rhsDen = 0
      · rw [decide_eq_true hlr, decide_eq_true hrr, hlr, hrr, Nat.zero_mul, Nat.zero_mul]
        simp [Fractions.answer]
      · have hlt : 0 < s.rhsNum % s.rhsDen * s.lhsDen := Nat.mul_pos (Nat.pos_of_ne_zero hrr) hl
        rw [decide_eq_true hlr, decide_eq_false hrr, hlr, Nat.zero_mul, compare_lt_iff_lt.mpr hlt]
        rfl
      · have hlt : 0 < s.lhsNum % s.lhsDen * s.rhsDen := Nat.mul_pos (Nat.pos_of_ne_zero hlr) hr
        rw [decide_eq_false hlr, decide_eq_true hrr, hrr, Nat.zero_mul, compare_gt_iff_gt.mpr hlt]
        rfl
      · -- the reciprocals of the remainders compare the other way
        have hlt := Nat.mod_lt s.lhsNum hl
        rw [decide_eq_false hlr, decide_eq_false hrr]
        simp only [cond_false]
        rw [ih (Nat.pos_of_ne_zero hlr) (Nat.pos_of_ne_zero hrr) (by dsimp only; omega)]
        unfold Fractions.answer
        dsimp only
        rw [Nat.mul_comm s.lhsDen, Nat.mul_comm s.rhsDen, ← Nat.compare_swap]
        cases s.reversed <;> simp
    · rw [compare_of_div_ne hl hr hinteger, loop, compareTurn, divideU128, if_neg hl.ne', divideU128, if_neg hr.ne']
      simp [hinteger]

theorem comparePositiveFractions_eq {n d n' d' : Nat} (hd : 0 < d) (hd' : 0 < d') :
    comparePositiveFractions n d n' d' = some (compare (n * d') (n' * d)) :=
  compareLoop_eq (d + 1) hd hd' (Nat.lt_succ_self d)

theorem compare_natCast (m n : Nat) : compare (m : Int) (n : Int) = compare m n := by
  rcases lt_trichotomy m n with h | h | h
  · rw [compare_lt_iff_lt.mpr h, compare_lt_iff_lt.mpr (by omega)]
  · rw [compare_eq_iff_eq.mpr h, compare_eq_iff_eq.mpr (by omega)]
  · rw [compare_gt_iff_gt.mpr h, compare_gt_iff_gt.mpr (by omega)]

theorem compare_neg (x y : Int) : compare (-x) (-y) = compare y x := by
  rcases lt_trichotomy y x with h | h | h
  · rw [compare_lt_iff_lt.mpr h, compare_lt_iff_lt.mpr (by omega)]
  · rw [compare_eq_iff_eq.mpr h, compare_eq_iff_eq.mpr (by omega)]
  · rw [compare_gt_iff_gt.mpr h, compare_gt_iff_gt.mpr (by omega)]

theorem cmp_eq {a b : ClockRational} (ha : a.Canonical) (hb : b.Canonical) :
    cmp a b = some (compare (a.num * b.den) (b.num * a.den)) := by
  obtain ⟨d₁, hd₁, hpos₁, hlt₁, -, has₁, -⟩ := ha.exists_nat
  obtain ⟨d₂, hd₂, hpos₂, hlt₂, -, has₂, -⟩ := hb.exists_nat
  have hda : (0 : Int) < d₁ := by exact_mod_cast hpos₁
  have hdb : (0 : Int) < d₂ := by exact_mod_cast hpos₂
  unfold cmp
  rw [has₁, has₂, hd₁, hd₂]
  by_cases hna : a.num < 0 <;> by_cases hnb : b.num < 0
  · rw [decide_eq_true hna, decide_eq_true hnb]
    dsimp only
    rw [comparePositiveFractions_eq hpos₂ hpos₁, ← compare_natCast, ← compare_neg (b.num * d₁)]
    push_cast
    rw [abs_of_neg hna, abs_of_neg hnb, neg_mul, neg_mul]
  · rw [decide_eq_true hna, decide_eq_false hnb]
    have hx : a.num * d₂ < 0 := mul_neg_of_neg_of_pos hna hdb
    have hy : 0 ≤ b.num * d₁ := Int.mul_nonneg (by omega) hda.le
    rw [compare_lt_iff_lt.mpr (by omega)]
  · rw [decide_eq_false hna, decide_eq_true hnb]
    have hx : 0 ≤ a.num * d₂ := Int.mul_nonneg (by omega) hdb.le
    have hy : b.num * d₁ < 0 := mul_neg_of_neg_of_pos hnb hda
    rw [compare_gt_iff_gt.mpr (by omega)]
  · rw [decide_eq_false hna, decide_eq_false hnb]
    dsimp only
    rw [comparePositiveFractions_eq hpos₁ hpos₂, asU128_of_range (by omega) ha.num_range.2,
      asU128_of_range (by omega) hb.num_range.2, ← compare_natCast]
    push_cast
    rw [abs_of_nonneg (by omega), abs_of_nonneg (by omega)]

theorem cross_lt_iff {a b : ClockRational} (ha : a.Canonical) (hb : b.Canonical) :
    a.num * b.den < b.num * a.den ↔ a.value < b.value := by
  have hda : (0 : ℚ) < a.den := by exact_mod_cast ha.den_pos
  have hdb : (0 : ℚ) < b.den := by exact_mod_cast hb.den_pos
  rw [value, value, div_lt_div_iff₀ hda hdb]
  exact_mod_cast Iff.rfl

theorem cmp_spec {a b : ClockRational} (ha : a.Canonical) (hb : b.Canonical) :
    ∃ ordering, cmp a b = some ordering ∧ (ordering = .lt ↔ a.value < b.value) ∧ (ordering = .eq ↔ a.value = b.value) ∧
      (ordering = .gt ↔ b.value < a.value) := by
  refine ⟨_, cmp_eq ha hb, ?_, ?_, ?_⟩
  · rw [compare_lt_iff_lt, cross_lt_iff ha hb]
  · rw [compare_eq_iff_eq, ← not_iff_not, ← ne_eq, ← ne_eq, lt_or_lt_iff_ne.symm, lt_or_lt_iff_ne.symm,
      cross_lt_iff ha hb, cross_lt_iff hb ha]
  · rw [compare_gt_iff_gt, cross_lt_iff hb ha]

/-! ## The operations together -/

def Exact (result : LatticeResult ClockRational) (q : ℚ) : Prop :=
  Outcome result (fun r => r.Canonical ∧ r.value = q) fun _ => True

def Complete (result : LatticeResult ClockRational) (q : ℚ) : Prop :=
  Outcome result (fun r => r.Canonical ∧ r.value = q) fun _ => ¬ Representable q

/-- What the operations on a pair of values promise. -/
structure ExactPair (a b : ClockRational) : Prop where
  add : Exact (a.checkedAdd b) (a.value + b.value)
  sub : Exact (a.checkedSub b) (a.value - b.value)
  mul : Complete (a.checkedMul b) (a.value * b.value)
  div_zero : b.value = 0 → a.checkedDiv b = throw .zeroDenominator
  div : b.value ≠ 0 → Complete (a.checkedDiv b) (a.value / b.value)
  cmp : ∃ ordering, a.cmp b = some ordering ∧ (ordering = .lt ↔ a.value < b.value) ∧
    (ordering = .eq ↔ a.value = b.value) ∧ (ordering = .gt ↔ b.value < a.value)

theorem value_eq_zero {r : ClockRational} (h : r.Canonical) : r.value = 0 ↔ r.num = 0 := by
  have hden : (r.den : ℚ) ≠ 0 := by exact_mod_cast h.den_pos.ne'
  rw [value, div_eq_zero_iff, or_iff_left hden, Int.cast_eq_zero]

theorem not_exactPair {a b : ClockRational} (ha : a.Canonical) (hb : b.Canonical) (hover : DivOverflows a b) :
    ¬ ExactPair a b := by
  intro h
  have hb0 : b.value ≠ 0 := fun hzero => hover.negative.ne ((value_eq_zero hb).mp hzero)
  rcases h.div hb0 with ⟨r, hr, -⟩ | ⟨e, -, hrep⟩
  · rw [div_overflow ha hb hover] at hr
    exact nomatch Option.some.inj hr
  · refine hrep ⟨?_, hover.den⟩
    rw [hover.num]
    exact ⟨le_rfl, by unfold i128Limit; norm_num⟩

/-- The operations on canonical values are exact, products and quotients answer whenever the result fits, and the
comparison is that of the rationals, unless a positive value over a negative one has `i128::MIN` as its numerator. -/
theorem exactPair_iff {a b : ClockRational} (ha : a.Canonical) (hb : b.Canonical) :
    ExactPair a b ↔ ¬ DivOverflows a b := by
  constructor
  · exact fun h hover => not_exactPair ha hb hover h
  · intro hover
    refine ⟨?_, ?_, mul_spec ha hb, fun hzero => ?_, fun hne => ?_, cmp_spec ha hb⟩
    · exact (combine_spec ha hb false).mono (fun r h => h) fun _ _ => trivial
    · exact (combine_spec ha hb true).mono (fun r h => ⟨h.1, h.2.trans (by rw [operand, if_pos rfl, sub_eq_add_neg])⟩)
        fun _ _ => trivial
    · rw [checkedDiv, if_pos (by simpa [isZero] using (value_eq_zero hb).mp hzero)]
    · exact (div_spec ha hb fun hzero => hne ((value_eq_zero hb).mpr hzero)).mono (fun r h => h)
        fun _ h => h.resolve_right hover

/-- Tenths and sevenths of seconds. -/
theorem exactPair_tenth : ExactPair ⟨-1, 10⟩ ⟨3, 7⟩ ↔ ¬ DivOverflows ⟨-1, 10⟩ ⟨3, 7⟩ :=
  exactPair_iff ⟨by unfold IsI128 i128Limit; norm_num, by decide, by unfold i128Limit; norm_num, by decide⟩
    ⟨by unfold IsI128 i128Limit; norm_num, by decide, by unfold i128Limit; norm_num, by decide⟩

/-- `2^126` over `-1/2` is `i128::MIN`, which the quotient refuses. -/
theorem exactPair_min : ¬ ∀ a b : ClockRational, a.Canonical → b.Canonical → ExactPair a b := by
  intro h
  have ha : Canonical ⟨2 ^ 126, 1⟩ :=
    ⟨by unfold IsI128 i128Limit; norm_num, by decide, by unfold i128Limit; norm_num, by simp⟩
  have hb : Canonical ⟨-1, 2⟩ :=
    ⟨by unfold IsI128 i128Limit; norm_num, by decide, by unfold i128Limit; norm_num, by decide⟩
  have hvalue : (⟨2 ^ 126, 1⟩ : ClockRational).value / (⟨-1, 2⟩ : ClockRational).value = ((-i128Limit : Int) : ℚ) := by
    simp only [value, i128Limit]
    norm_num
  refine not_exactPair ha hb ⟨by norm_num, by norm_num, ?_, ?_⟩ (h _ _ ha hb)
  · rw [hvalue, Rat.num_intCast]
  · rw [hvalue, Rat.den_intCast]
    unfold i128Limit
    norm_num

end ClockRational

end Rumoca.Core
