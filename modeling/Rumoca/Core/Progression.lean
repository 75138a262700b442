import Rumoca.Machine
/-!
# Arithmetic progressions

The integers `first + k * step` for `k < count`, with an ascending step. The
operations are those of `i64`: an overflow, checked or not, gives no result, and
each result is characterised by its elements.
-/

namespace Rumoca.Core

theorem checkedI64_value {n m : Int} (h : checkedI64 n = some m) : m = n := (checkedI64_eq_some.1 h).1.symm

structure Progression where
  first : Int
  step : Int
  count : Nat
  step_pos : 0 < step
deriving DecidableEq, Repr

namespace Progression

instance : Membership Int Progression where
  mem p x := ∃ k : Nat, k < p.count ∧ x = p.first + k * p.step

theorem mem_iff {p : Progression} {x : Int} : x ∈ p ↔ ∃ k : Nat, k < p.count ∧ x = p.first + k * p.step := Iff.rfl

def empty : Progression := ⟨0, 1, 0, by decide⟩

def single (value : Int) : Progression := ⟨value, 1, 1, by decide⟩

def firstOf (p : Progression) : Option Int := if p.count = 0 then none else some p.first

def lastOf (p : Progression) : Option Int := if p.count = 0 then none else some (p.first + (p.count - 1) * p.step)

/-- The progression from `first` to `last`, a whole number of steps apart. -/
def between (first step last : Int) (h : step ≠ 0) : Option Progression := do
  let width ← checkedI64 (last - first)
  let count ← checkedI64 (width / |step| + 1)
  return ⟨first, |step|, count.toNat, abs_pos.2 h⟩

/-- `lower:step:upper` for a positive or negative step, kept with an ascending step. -/
def range (lower step upper : Int) : Option Progression :=
  if h : step = 0 then none
  else do
    let magnitude ← checkedI64 |step|
    if 0 < step then
      if upper < lower then return empty
      let span ← checkedI64 (upper - lower)
      let reach ← checkedI64 (span / magnitude * magnitude)
      let last ← checkedI64 (lower + reach)
      between lower step last h
    else
      if lower < upper then return empty
      let span ← checkedI64 (lower - upper)
      let reach ← checkedI64 (span / magnitude * magnitude)
      let first ← checkedI64 (lower - reach)
      between first step lower h

/-- `a * value + b`. -/
def scaled (a value b : Int) : Option Int := do
  let product ← checkedI64 (a * value)
  checkedI64 (product + b)

/-- `a * v + b` for every element `v`. -/
def affineImage (p : Progression) (a b : Int) : Option Progression :=
  if p.count = 0 then some empty
  else if h : a = 0 ∨ p.count = 1 then (scaled a p.first b).map single
  else do
    let first ← scaled a p.first b
    let last ← p.lastOf
    let last ← scaled a last b
    let _ ← checkedI64 (a * p.step)
    let _ ← checkedI64 |a * p.step|
    return ⟨min first last, |a * p.step|, p.count, abs_pos.2 (mul_ne_zero (not_or.1 h).1 p.step_pos.ne')⟩

/-! ## Elements -/

variable {p q : Progression} {x : Int}

theorem not_mem_of_count (h : p.count = 0) : x ∉ p := by
  rintro ⟨k, hk, -⟩
  omega

theorem not_mem_empty : x ∉ empty := not_mem_of_count rfl

theorem first_mem (h : p.count ≠ 0) : p.first ∈ p := ⟨0, Nat.pos_of_ne_zero h, by simp⟩

theorem exists_mem_iff : (∃ x, x ∈ p) ↔ p.count ≠ 0 :=
  ⟨fun ⟨_, hx⟩ h => not_mem_of_count h hx, fun h => ⟨_, first_mem h⟩⟩

theorem mem_single {value : Int} : x ∈ single value ↔ x = value := by
  constructor
  · rintro ⟨k, hk, rfl⟩
    have hzero : k = 0 := Nat.lt_one_iff.1 hk
    simp [single, hzero]
  · rintro rfl
    exact ⟨0, Nat.zero_lt_one, by simp [single]⟩

theorem mem_of_count_one (h : p.count = 1) : x ∈ p ↔ x = p.first := by
  constructor
  · rintro ⟨k, hk, rfl⟩
    have hzero : k = 0 := by omega
    simp [hzero]
  · rintro rfl
    exact first_mem (by omega)

theorem firstOf_eq_some {v : Int} (h : p.firstOf = some v) : p.count ≠ 0 ∧ v = p.first := by
  unfold firstOf at h
  split_ifs at h with hcount
  exact ⟨hcount, (Option.some_inj.1 h).symm⟩

theorem lastOf_eq_some {v : Int} (h : p.lastOf = some v) : p.count ≠ 0 ∧ v = p.first + (p.count - 1) * p.step := by
  unfold lastOf at h
  split_ifs at h with hcount
  exact ⟨hcount, (Option.some_inj.1 h).symm⟩

theorem first_le (h : x ∈ p) : p.first ≤ x := by
  obtain ⟨k, -, rfl⟩ := h
  have := mul_nonneg (Int.natCast_nonneg k) p.step_pos.le
  linarith

theorem le_last (h : x ∈ p) : x ≤ p.first + (p.count - 1) * p.step := by
  obtain ⟨k, hk, rfl⟩ := h
  have hle : (k : Int) ≤ p.count - 1 := by omega
  have := mul_le_mul_of_nonneg_right hle p.step_pos.le
  linarith

theorem between_spec {first step last : Int} {h : step ≠ 0} (hp : between first step last h = some p) {n : Nat}
    (hlast : last = first + n * |step|) : p.first = first ∧ p.step = |step| ∧ p.count = n + 1 := by
  unfold between at hp
  obtain ⟨width, hwidth, hp⟩ := Option.bind_eq_some_iff.1 hp
  obtain ⟨count, hcount, hp⟩ := Option.bind_eq_some_iff.1 hp
  cases hp
  refine ⟨rfl, rfl, ?_⟩
  have hw := checkedI64_value hwidth
  have hc := checkedI64_value hcount
  have hquot : width / |step| = n := by
    rw [hw, hlast, add_sub_cancel_left]
    exact Int.mul_ediv_cancel _ (abs_pos.2 h).ne'
  show count.toNat = n + 1
  omega

theorem range_spec {lower step upper : Int} (hstep : 0 < step) {n : Nat} (hupper : upper = lower + n * step)
    (hp : range lower step upper = some p) : p.first = lower ∧ p.step = step ∧ p.count = n + 1 := by
  unfold range at hp
  rw [dif_neg hstep.ne'] at hp
  obtain ⟨magnitude, hmagnitude, hp⟩ := Option.bind_eq_some_iff.1 hp
  have hm : magnitude = step := (checkedI64_value hmagnitude).trans (abs_of_pos hstep)
  have hle : ¬ upper < lower := by
    have := mul_nonneg (Int.natCast_nonneg n) hstep.le
    linarith
  rw [if_pos hstep, if_neg hle] at hp
  obtain ⟨span, hspan, hp⟩ := Option.bind_eq_some_iff.1 hp
  obtain ⟨reach, hreach, hp⟩ := Option.bind_eq_some_iff.1 hp
  obtain ⟨last, hlast, hp⟩ := Option.bind_eq_some_iff.1 hp
  have hs := checkedI64_value hspan
  have hr := checkedI64_value hreach
  have hl := checkedI64_value hlast
  have hreach' : reach = n * step := by
    rw [hr, hm, hs, hupper, add_sub_cancel_left, Int.mul_ediv_cancel _ hstep.ne']
  have habs : |step| = step := abs_of_pos hstep
  have hfacts := between_spec hp (n := n) (by rw [habs, hl, hreach'])
  rwa [habs] at hfacts

theorem mem_affineImage {a b : Int} (h : p.affineImage a b = some q) : x ∈ q ↔ ∃ v ∈ p, x = a * v + b := by
  unfold affineImage at h
  split_ifs at h with hcount hsingle
  · cases h
    exact iff_of_false not_mem_empty fun ⟨v, hv, _⟩ => not_mem_of_count hcount hv
  · obtain ⟨value, hvalue, rfl⟩ := Option.map_eq_some_iff.1 h
    obtain ⟨product, hproduct, hvalue⟩ := Option.bind_eq_some_iff.1 hvalue
    have hp := checkedI64_value hproduct
    have hv := checkedI64_value hvalue
    rw [mem_single, hv, hp]
    constructor
    · rintro rfl
      exact ⟨p.first, first_mem hcount, rfl⟩
    · rintro ⟨v, hmem, rfl⟩
      rcases hsingle with rfl | hone
      · simp
      · rw [(mem_of_count_one hone).1 hmem]
  · obtain ⟨first, hfirst, h⟩ := Option.bind_eq_some_iff.1 h
    obtain ⟨last, hlast, h⟩ := Option.bind_eq_some_iff.1 h
    obtain ⟨last', hlast', h⟩ := Option.bind_eq_some_iff.1 h
    obtain ⟨-, -, h⟩ := Option.bind_eq_some_iff.1 h
    obtain ⟨-, -, h⟩ := Option.bind_eq_some_iff.1 h
    cases h
    have hscaled : ∀ {v r : Int}, scaled a v b = some r → r = a * v + b := by
      intro v r hr
      obtain ⟨product, hproduct, hr⟩ := Option.bind_eq_some_iff.1 hr
      rw [checkedI64_value hr, checkedI64_value hproduct]
    have hf := hscaled hfirst
    have hl := hscaled hlast'
    rw [(lastOf_eq_some hlast).2] at hl
    have hstep := p.step_pos
    have ha : a ≠ 0 := (not_or.1 hsingle).1
    rw [mem_iff]
    simp only
    rcases lt_or_gt_of_ne ha with hneg | hpos
    · -- the image runs backwards
      have habs : |a * p.step| = -(a * p.step) := abs_of_neg (mul_neg_of_neg_of_pos hneg hstep)
      have hmin : min first last' = last' := by
        refine min_eq_right ?_
        have hle : a * ((p.count - 1) * p.step) ≤ 0 :=
          mul_nonpos_of_nonpos_of_nonneg hneg.le (mul_nonneg (by omega) hstep.le)
        rw [hf, hl]
        linarith
      rw [habs, hmin, hl]
      constructor
      · rintro ⟨k, hk, rfl⟩
        refine ⟨_, ⟨p.count - 1 - k, by omega, rfl⟩, ?_⟩
        rw [Nat.cast_sub (by omega), Nat.cast_sub (by omega)]
        push_cast
        ring
      · rintro ⟨v, ⟨k, hk, rfl⟩, rfl⟩
        refine ⟨p.count - 1 - k, by omega, ?_⟩
        rw [Nat.cast_sub (by omega), Nat.cast_sub (by omega)]
        push_cast
        ring
    · have habs : |a * p.step| = a * p.step := abs_of_pos (mul_pos hpos hstep)
      have hmin : min first last' = first := by
        refine min_eq_left ?_
        have hle : 0 ≤ a * ((p.count - 1) * p.step) := mul_nonneg hpos.le (mul_nonneg (by omega) hstep.le)
        rw [hf, hl]
        linarith
      rw [habs, hmin, hf]
      constructor
      · rintro ⟨k, hk, rfl⟩
        exact ⟨_, ⟨k, hk, rfl⟩, by ring⟩
      · rintro ⟨v, ⟨k, hk, rfl⟩, rfl⟩
        exact ⟨k, hk, by ring⟩

/-- Blocks of `inner` that fill the gaps of `outer` exactly form one progression. -/
theorem mem_tiled {inner outer : Progression} (hinner : inner.count ≠ 0) (houter : outer.count ≠ 0)
    (htile : outer.step = inner.step * inner.count)
    (h : range (inner.first + outer.first) inner.step (inner.first + (inner.count - 1) * inner.step +
      (outer.first + (outer.count - 1) * outer.step)) = some q) :
    x ∈ q ↔ ∃ i ∈ inner, ∃ o ∈ outer, x = i + o := by
  have hcount : ((inner.count * outer.count - 1 : Nat) : Int) = inner.count * outer.count - 1 := by
    rw [Nat.cast_sub (Nat.mul_pos (Nat.pos_of_ne_zero hinner) (Nat.pos_of_ne_zero houter))]
    push_cast
    ring
  obtain ⟨hfirst, hstep, hlength⟩ := range_spec inner.step_pos (n := inner.count * outer.count - 1)
    (by rw [htile, hcount]; ring) h
  have hlength' : q.count = inner.count * outer.count := by
    have := Nat.mul_pos (Nat.pos_of_ne_zero hinner) (Nat.pos_of_ne_zero houter)
    omega
  rw [mem_iff, hfirst, hstep, hlength']
  constructor
  · rintro ⟨k, hk, rfl⟩
    have hmod : k % inner.count < inner.count := Nat.mod_lt k (Nat.pos_of_ne_zero hinner)
    have hdiv : k / inner.count < outer.count := Nat.div_lt_of_lt_mul hk
    refine ⟨_, ⟨k % inner.count, hmod, rfl⟩, _, ⟨k / inner.count, hdiv, rfl⟩, ?_⟩
    have hk' : (k : Int) = (inner.count : Int) * (k / inner.count : Nat) + (k % inner.count : Nat) := by
      exact_mod_cast (Nat.div_add_mod k inner.count).symm
    rw [htile]
    nth_rewrite 1 [hk']
    ring
  · rintro ⟨i, ⟨a, ha, rfl⟩, o, ⟨b, hb, rfl⟩, rfl⟩
    refine ⟨a + inner.count * b, ?_, ?_⟩
    · calc a + inner.count * b < inner.count + inner.count * b := by omega
        _ = inner.count * (b + 1) := by ring
        _ ≤ inner.count * outer.count := Nat.mul_le_mul_left _ hb
    · rw [htile]
      push_cast
      ring

end Progression

end Rumoca.Core
