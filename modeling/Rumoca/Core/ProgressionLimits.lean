import Rumoca.Core.CheckedProgression
/-!
# When the operations on progressions stay inside `i64`

The constructors let a progression grow past what the unchecked operators can
take: a range of `2^63` elements, an image wider than `i64::MAX`, a run that
ends less than a step before `i64::MAX`. Away from these every operation
answers, and its answer is one the next operation can take.
-/

namespace Rumoca.Core

open Rumoca.Lib

namespace Checked

/-- A result with `P`, or `None`; in either case no panic. -/
def Answers {α : Type} (x : Checked α) (P : α → Prop) : Prop := Outcome x P fun _ => True

structure Fits (p : Progression) : Prop where
  first : IsI64 p.first
  step : p.step < i64Limit
  count : (p.count : Int) < i64Limit
  reach : p.count ≠ 0 → (p.count - 1) * p.step < i64Limit ∧ p.first + (p.count - 1) * p.step < i64Limit

/-- How a progression is obtained. -/
inductive Recipe where
  | range (lower step upper : Int)
  | single (value : Int)
  | affineImage (of : Recipe) (a b : Int)
  | intersect (lhs rhs : Recipe)

namespace Recipe

def progression : Recipe → Checked Progression
  | range lower step upper => Checked.range lower step upper
  | single value => pure (.single value)
  | affineImage of a b => do Checked.affineImage (← of.progression) a b
  | intersect lhs rhs => do Checked.intersect (← lhs.progression) (← rhs.progression)

def Elements : Recipe → Int → Prop
  | range lower step upper => InRange lower step upper
  | single value => (· = value)
  | affineImage of a b => fun y => ∃ x, of.Elements x ∧ y = a * x + b
  | intersect lhs rhs => fun x => lhs.Elements x ∧ rhs.Elements x

def Arguments : Recipe → Prop
  | range lower step upper => IsI64 lower ∧ IsI64 step ∧ IsI64 upper
  | single value => IsI64 value
  | affineImage of a b => of.Arguments ∧ IsI64 a ∧ IsI64 b
  | intersect lhs rhs => lhs.Arguments ∧ rhs.Arguments

/-- No range of `2^63` elements and no image wider than `i64::MAX`. -/
def Narrow : Recipe → Prop
  | range lower step upper =>
    ¬ (step = 1 ∧ upper - lower = i64Limit - 1) ∧ ¬ (step = -1 ∧ lower - upper = i64Limit - 1)
  | single _ => True
  | affineImage of a _ => of.Narrow ∧ ∀ x y, of.Elements x → of.Elements y → a * (x - y) < i64Limit
  | intersect lhs rhs => lhs.Narrow ∧ rhs.Narrow

end Recipe

/-! ## Answers -/

variable {p q common : Progression}

theorem Answers.and_pure {α : Type} {x : Checked α} {P R : α → Prop} (h : Answers x P) (hr : ∀ a, x = pure a → R a) :
    Answers x fun a => P a ∧ R a := by
  rcases h with ⟨a, hx, ha⟩ | ⟨e, hx, -⟩
  · exact .inl ⟨a, hx, ha, hr a hx⟩
  · exact .inr ⟨e, hx, trivial⟩

theorem Answers.refused {α : Type} {P : α → Prop} : Answers (throw ()) P := .throw trivial

theorem answers_tried (z : Int) : Answers (tried z) fun w => w = z ∧ IsI64 w := by
  unfold tried
  cases hz : checkedI64 z with
  | none => exact .throw trivial
  | some w =>
    obtain ⟨rfl, hlo, hhi⟩ := checkedI64_eq_some.1 hz
    exact .pure ⟨rfl, hlo, hhi⟩

theorem answers_scaled (a value b : Int) : Answers (scaled a value b) fun w => w = a * value + b ∧ IsI64 w :=
  (answers_tried _).bind fun product ⟨hproduct, _⟩ =>
    (answers_tried _).mono (fun w ⟨hw, hi⟩ => ⟨by rw [hw, hproduct], hi⟩) fun _ h => h

/-! ## Progressions that fit -/

theorem fits_empty : Fits .empty := ⟨by decide, by decide, by decide, fun h => absurd rfl h⟩

theorem fits_single {value : Int} (h : IsI64 value) : Fits (.single value) := by
  have hone : (1 : Int) < i64Limit := by decide
  refine ⟨h, hone, hone, fun _ => ?_⟩
  unfold IsI64 at h
  simp only [Progression.single, Nat.cast_one, sub_self, zero_mul, add_zero]
  exact ⟨by decide, h.2⟩

theorem reach_nonneg (h : p.count ≠ 0) : 0 ≤ (p.count - 1) * p.step := mul_nonneg (by omega) p.step_pos.le

theorem Fits.mem {x : Int} (h : Fits p) (hx : x ∈ p) : IsI64 x := by
  have hcount : p.count ≠ 0 := fun hzero => Progression.not_mem_of_count hzero hx
  have hlo := Progression.first_le hx
  have hhi := Progression.le_last hx
  have hfirst := h.first
  have hreach := h.reach hcount
  unfold IsI64 at hfirst ⊢
  omega

theorem last_of_fits (h : Fits p) : last p = pure p.lastOf := by
  unfold last Progression.lastOf
  split
  · rfl
  · next hne =>
    have hcount := h.count
    have hreach := h.reach hne
    have hnonneg := reach_nonneg hne
    have hfirst := h.first
    unfold IsI64 at hfirst
    rw [plain_eq (by unfold IsI64; omega), pure_bind, plain_eq (by unfold IsI64; omega), pure_bind,
      plain_eq (by unfold IsI64; omega)]
    rfl

theorem ofParts_fits (h : Fits p) (hp : p.count ≠ 0) {first step count : Int} (hfirst : IsI64 first)
    (hlo : p.first ≤ first) (hstep : p.step ≤ step) (hlimit : step < i64Limit) (hcount : 0 < count)
    (hhi : first + (count - 1) * step ≤ p.first + (p.count - 1) * p.step) :
    ∃ r, ofParts first step count = pure r ∧ Fits r := by
  have hpos := p.step_pos
  unfold ofParts
  rw [dif_pos ⟨by omega, hcount.le⟩]
  refine ⟨_, rfl, hfirst, hlimit, ?_, fun _ => ?_⟩
  · simp only [Int.toNat_of_nonneg hcount.le]
    have hle : (count - 1) * p.step ≤ (count - 1) * step := mul_le_mul_of_nonneg_left hstep (by omega)
    have : count - 1 ≤ p.count - 1 := le_of_mul_le_mul_right (by omega) hpos
    have := h.count
    omega
  · simp only [Int.toNat_of_nonneg hcount.le]
    have := h.reach hp
    omega

theorem run_fits (h : Fits p) (hp : p.count ≠ 0) {first step last : Int} (hlo : p.first ≤ first) (hle : first ≤ last)
    (hstep : p.step ≤ step) (hlimit : step < i64Limit) (hhi : last ≤ p.first + (p.count - 1) * p.step) :
    ∃ r, run first step last = pure r ∧ Fits r := by
  have hpos := p.step_pos
  have hreach := h.reach hp
  have hfirst := h.first
  have hspan := Int.ediv_mul_le (last - first) (show step ≠ 0 by omega)
  have hquot : 0 ≤ (last - first) / step := Int.ediv_nonneg (by omega) (by omega)
  have hless : (last - first) / step ≤ p.count - 1 := by
    have : (last - first) / step * p.step ≤ (last - first) / step * step := mul_le_mul_of_nonneg_left hstep hquot
    exact le_of_mul_le_mul_right (by omega) hpos
  have hcount := h.count
  unfold IsI64 at hfirst
  unfold run
  rw [plain_eq (by unfold IsI64; omega), pure_bind, Int.tdiv_eq_ediv_of_nonneg (by omega),
    plain_eq (by unfold IsI64; omega), pure_bind]
  exact ofParts_fits h hp (by unfold IsI64; omega) hlo hstep hlimit (by omega) (by rw [add_sub_cancel_right]; omega)

/-! ## Ranges and images -/

theorem run_range_fits {first step last reach : Int} (hstep : 0 < step) (hlimit : step < i64Limit) (hfirst : IsI64 first)
    (hlast : last = first + reach / step * step) (hi : IsI64 last) (hreach0 : 0 ≤ reach) (hreach : reach < i64Limit)
    (hnarrow : ¬ (step = 1 ∧ reach = i64Limit - 1)) : ∃ r, run first step last = pure r ∧ Fits r := by
  have hquot : 0 ≤ reach / step := Int.ediv_nonneg hreach0 hstep.le
  have hmul : 0 ≤ reach / step * step := mul_nonneg hquot hstep.le
  have hle := Int.ediv_mul_le reach hstep.ne'
  have hback : (last - first) / step = reach / step := by
    rw [hlast, add_sub_cancel_left, Int.mul_ediv_cancel _ hstep.ne']
  -- only a step of one leaves no room for the element more
  have hcount : reach / step + 1 < i64Limit := by
    rcases (show step = 1 ∨ 2 ≤ step by omega) with rfl | htwo
    · rw [Int.ediv_one]
      omega
    · have : reach / step * 2 ≤ reach / step * step := mul_le_mul_of_nonneg_left htwo hquot
      unfold i64Limit at hreach ⊢
      omega
  unfold IsI64 at hi hfirst
  unfold run
  rw [plain_eq (by unfold IsI64; omega), pure_bind, Int.tdiv_eq_ediv_of_nonneg (by omega), hback,
    plain_eq (by unfold IsI64; omega), pure_bind]
  unfold ofParts
  rw [dif_pos ⟨hstep, by omega⟩]
  refine ⟨_, rfl, hfirst, hlimit, ?_, fun _ => ?_⟩
  · simp only [Int.toNat_of_nonneg (show 0 ≤ reach / step + 1 by omega)]
    exact hcount
  · simp only [Int.toNat_of_nonneg (show 0 ≤ reach / step + 1 by omega), add_sub_cancel_right]
    omega

theorem range_answers {lower step upper : Int} (hlower : IsI64 lower)
    (h : (Recipe.range lower step upper).Narrow) : Answers (range lower step upper) Fits := by
  unfold range
  split
  · exact .refused
  next hne =>
  refine (answers_tried _).bind fun magnitude ⟨hmagnitude, hlimit⟩ => ?_
  have hpos : 0 < magnitude := hmagnitude ▸ abs_pos.2 hne
  split
  · next hascending =>
    rw [abs_of_pos hascending] at hmagnitude
    split
    · exact .pure fits_empty
    next hle =>
    refine (answers_tried _).bind fun span ⟨hspan, hi⟩ => (answers_tried _).bind fun reach ⟨hreach, _⟩ =>
      (answers_tried _).bind fun last ⟨hlast, hil⟩ => ?_
    rw [Int.tdiv_eq_ediv_of_nonneg (by omega)] at hreach
    obtain ⟨r, hr, hfits⟩ := run_range_fits hpos hlimit.2 hlower (hreach ▸ hlast) hil (by omega)
      hi.2 fun ⟨h₁, h₂⟩ => h.1 ⟨by omega, by omega⟩
    exact .inl ⟨r, hr, hfits⟩
  · next hdescending =>
    rw [abs_of_neg (by omega)] at hmagnitude
    split
    · exact .pure fits_empty
    next hle =>
    refine (answers_tried _).bind fun span ⟨hspan, hi⟩ => (answers_tried _).bind fun reach ⟨hreach, _⟩ =>
      (answers_tried _).bind fun first ⟨hfirst, hif⟩ => ?_
    rw [Int.tdiv_eq_ediv_of_nonneg (by omega)] at hreach
    have hends : lower = first + span / magnitude * magnitude := by omega
    obtain ⟨r, hr, hfits⟩ := run_range_fits hpos hlimit.2 hif hends hlower (by omega)
      hi.2 fun ⟨h₁, h₂⟩ => h.2 ⟨by omega, by omega⟩
    exact .inl ⟨r, hr, hfits⟩

theorem affineImage_answers {a b : Int} (hp : Fits p) (h : ∀ x ∈ p, ∀ y ∈ p, a * (x - y) < i64Limit) :
    Answers (affineImage p a b) Fits := by
  unfold affineImage
  split
  · exact .pure fits_empty
  next hne =>
  split
  · rw [map_eq_pure_bind]
    exact (answers_scaled _ _ _).bind fun value hvalue => .pure (fits_single hvalue.2)
  next hmany =>
  have hpos := p.step_pos
  rw [last_of_fits hp, Progression.lastOf, if_neg hne]
  refine (answers_scaled _ _ _).bind fun first hscaled => ?_
  obtain ⟨hfirst, hif⟩ := hscaled
  rw [pure_bind]
  refine (answers_scaled _ _ _).bind fun last hscaled => ?_
  obtain ⟨hlast, hil⟩ := hscaled
  refine (answers_tried _).bind fun product htried => (answers_tried _).bind fun step hsize => ?_
  obtain ⟨hproduct, -⟩ := htried
  obtain ⟨hstep, his⟩ := hsize
  have hsteppos : 0 < step := hstep ▸ abs_pos.2 (hproduct ▸ mul_ne_zero (not_or.1 hmany).1 hpos.ne')
  unfold ofParts
  rw [dif_pos ⟨hsteppos, by omega⟩]
  -- the image runs from the lesser of the two ends to the greater
  have hwide : (p.count - 1 : Int) * step = |last - first| := by
    have heq : last - first = (p.count - 1) * product := by rw [hlast, hfirst, hproduct]; ring
    rw [heq, abs_mul, abs_of_nonneg (show (0 : Int) ≤ p.count - 1 by omega), hstep]
  have hends : p.first + (p.count - 1) * p.step ∈ p := ⟨p.count - 1, by omega, by rw [Nat.cast_sub (by omega)]; rfl⟩
  have h₁ := h _ hends _ (Progression.first_mem hne)
  have h₂ := h _ (Progression.first_mem hne) _ hends
  have hspan : last - first = a * (p.first + (p.count - 1) * p.step - p.first) := by rw [hlast, hfirst]; ring
  have hspan' : first - last = a * (p.first - (p.first + (p.count - 1) * p.step)) := by rw [hlast, hfirst]; ring
  rw [← hspan] at h₁
  rw [← hspan'] at h₂
  have hcount := hp.count
  unfold IsI64 at hif hil his
  refine .pure ⟨?_, his.2, ?_, fun _ => ?_⟩
  · unfold IsI64
    simp only [le_min_iff, min_lt_iff]
    omega
  · simpa using hcount
  · simp only [Int.toNat_natCast, hwide]
    rcases le_total first last with hle | hle
    · rw [min_eq_left hle, abs_of_nonneg (by omega)]
      omega
    · rw [min_eq_right hle, abs_of_nonpos (by omega)]
      omega

/-! ## Common elements -/

theorem extendedGcd_fits (fuel : Nat) {a b : Int} (ha : 0 < a) (hb : 0 ≤ b) (hfuel : b < fuel) (hal : a < i64Limit)
    (hbl : b < i64Limit) : ∃ gcd x y, extendedGcd fuel a b = pure (gcd, x, y) ∧ |x| ≤ max b 1 ∧ |y| ≤ a ∧
      (b = 0 → x = 1 ∧ y = 0) := by
  induction fuel generalizing a b with
  | zero => omega
  | succ fuel ih =>
    rw [extendedGcd]
    split
    · next hzero =>
      subst hzero
      exact ⟨a, 1, 0, rfl, by decide, by simpa using ha.le, fun _ => ⟨rfl, rfl⟩⟩
    · next hne =>
      have hbpos : 0 < b := by omega
      have hmod0 := Int.emod_nonneg a hne
      have hmod := Int.emod_lt_of_pos a hbpos
      obtain ⟨gcd, x, y, hrec, hx, hy, hbase⟩ := ih hbpos hmod0 (by omega) hbl (by omega)
      have hsplit := Int.emod_add_mul_ediv a b
      have hmax : max b 1 = b := max_eq_left (by omega)
      have hquot : 0 ≤ a / b := Int.ediv_nonneg ha.le hb
      have hproduct : |a / b * y| ≤ b * (a / b) := by
        rw [abs_mul, abs_of_nonneg hquot, mul_comm b]
        exact mul_le_mul_of_nonneg_left hy hquot
      have hsecond : |x - a / b * y| ≤ a := by
        rcases eq_or_lt_of_le hmod0 with hzero | hpos
        · obtain ⟨rfl, rfl⟩ := hbase hzero.symm
          rw [mul_zero, sub_zero, abs_one]
          omega
        · rw [max_eq_left (by omega)] at hx
          have := abs_sub x (a / b * y)
          omega
      rw [Int.tmod_eq_emod_of_nonneg ha.le, hrec, pure_bind, Int.tdiv_eq_ediv_of_nonneg ha.le]
      have hsmall : ∀ {z : Int}, |z| ≤ a → IsI64 z := fun hz => by
        have := abs_le.1 hz
        unfold IsI64
        omega
      simp only
      rw [plain_eq (hsmall (by omega)), pure_bind, plain_eq (hsmall hsecond), pure_bind]
      exact ⟨gcd, y, x - a / b * y, rfl, by omega, hsecond, fun h => absurd h hne⟩

theorem meetBetween_answers (hp : Fits p) (hq : Fits q) (hne : p.count ≠ 0) {lower upper : Int} (hlo : p.first ≤ lower)
    (hhi : upper ≤ p.first + (p.count - 1) * p.step) : Answers (meetBetween p q lower upper) Fits := by
  have hppos := p.step_pos
  have hqpos := q.step_pos
  obtain ⟨gcd, x, y, hgcd, -⟩ := extendedGcd_fits (q.step.toNat + 1) hppos hqpos.le (by omega) hp.step hq.step
  obtain ⟨-, hga, ⟨n, hn⟩, hpos⟩ := extendedGcd_spec hppos.le hqpos.le (.inl hppos) hgcd
  unfold meetBetween
  rw [hgcd, pure_bind]
  refine (answers_tried _).bind fun difference _ => ?_
  split
  · exact .pure fits_empty
  refine (answers_tried _).bind fun step ⟨hstep, his⟩ => (answers_tried _).bind fun first ⟨hfirst, _⟩ => ?_
  -- the step is `p`'s times what is left of `q`'s
  have hless : p.step ≤ step := by
    have hn0 : 0 < n := by
      rw [hn] at hqpos
      exact (pos_iff_pos_of_mul_pos hqpos).1 hpos
    have heq : step = p.step * n := by
      rw [hstep, Int.tdiv_eq_ediv_of_nonneg hppos.le, hn, ← mul_assoc, Int.ediv_mul_cancel hga]
    rw [heq]
    exact le_mul_of_one_le_right hppos.le hn0
  have hoff : 0 ≤ (p.first + (difference.tdiv gcd * x).tmod (q.step.tdiv gcd) * p.step - lower) % step :=
    Int.emod_nonneg _ (by omega)
  split
  · exact .pure fits_empty
  · next hle =>
    obtain ⟨r, hr, hfits⟩ := run_fits hp hne (show p.first ≤ first by omega) (show first ≤ upper by omega) hless his.2 hhi
    exact .inl ⟨r, hr, hfits⟩

theorem intersect_answers (hp : Fits p) (hq : Fits q) : Answers (intersect p q) Fits := by
  unfold intersect
  rw [last_of_fits hp, last_of_fits hq, pure_bind, pure_bind]
  unfold Progression.lastOf
  by_cases hne : p.count = 0
  · rw [if_pos hne]
    exact .pure fits_empty
  · rw [if_neg hne]
    by_cases hne' : q.count = 0
    · rw [if_pos hne']
      exact .pure fits_empty
    · rw [if_neg hne']
      simp only
      split
      · exact .pure fits_empty
      · exact meetBetween_answers hp hq hne (le_max_left _ _) (min_le_left _ _)

/-! ## Elements of the one and not of the other -/

section Difference

variable {commonLast : Int}

theorem partBefore_answers (hp : Fits p) (hmem : common.first ∈ p) :
    Answers (partBefore p common) fun parts => ∀ part ∈ parts, Fits part := by
  have hne : p.count ≠ 0 := fun hzero => Progression.not_mem_of_count hzero hmem
  have hpos := p.step_pos
  have hlo := Progression.first_le hmem
  have hhi := Progression.le_last hmem
  have hreach := hp.reach hne
  have hfirst := hp.first
  unfold partBefore
  rw [plain_eq (by unfold IsI64 at hfirst ⊢; omega), pure_bind, Int.tdiv_eq_ediv_of_nonneg (by omega)]
  have hquot := Int.ediv_mul_le (common.first - p.first) hpos.ne'
  split
  · next hsome =>
    obtain ⟨r, hr, hfits⟩ := ofParts_fits hp hne hfirst le_rfl le_rfl hp.step hsome (by rw [sub_one_mul]; omega)
    rw [hr]
    exact .pure fun part hpart => List.mem_singleton.1 hpart ▸ hfits
  · exact .pure (by simp)

theorem partAfter_answers (hp : Fits p) (hmem : commonLast ∈ p) (hroom : commonLast + p.step < i64Limit) :
    Answers (partAfter p commonLast) fun parts => ∀ part ∈ parts, Fits part := by
  have hne : p.count ≠ 0 := fun hzero => Progression.not_mem_of_count hzero hmem
  have hpos := p.step_pos
  have hlo := Progression.first_le hmem
  have hreach := hp.reach hne
  have hfirst := hp.first
  have hafter : IsI64 (commonLast + p.step) := by
    unfold IsI64 at hfirst ⊢
    omega
  unfold partAfter
  rw [plain_eq hafter, pure_bind, last_of_fits hp, pure_bind, Progression.lastOf, if_neg hne]
  simp only
  set lastValue := p.first + (p.count - 1) * p.step with hlast
  have hcount : Answers (spanCount p.step (checkedI64 (lastValue - (commonLast + p.step)))) fun after =>
      0 < after → commonLast + p.step + (after - 1) * p.step ≤ lastValue := by
    cases hchecked : checkedI64 (lastValue - (commonLast + p.step)) with
    | none => exact .pure fun h => absurd h (lt_irrefl 0)
    | some span =>
      obtain rfl := checkedI64_value hchecked
      rw [spanCount]
      split
      · exact .pure fun h => absurd h (lt_irrefl 0)
      · next hge =>
        have hquot := Int.ediv_mul_le (lastValue - (commonLast + p.step)) hpos.ne'
        have hquot0 : 0 ≤ (lastValue - (commonLast + p.step)) / p.step := Int.ediv_nonneg (by omega) hpos.le
        have hless : (lastValue - (commonLast + p.step)) / p.step ≤ p.count - 1 :=
          le_of_mul_le_mul_right (by omega) hpos
        have := hp.count
        rw [Int.tdiv_eq_ediv_of_nonneg (by omega), plain_eq (by unfold IsI64; omega)]
        exact .pure fun _ => by rw [add_sub_cancel_right]; omega
  refine hcount.bind fun after hafter' => ?_
  split
  · next hsome =>
    obtain ⟨r, hr, hfits⟩ := ofParts_fits hp hne hafter (by omega) le_rfl hp.step hsome (hafter' hsome)
    rw [hr]
    exact .pure fun part hpart => List.mem_singleton.1 hpart ▸ hfits
  · exact .pure (by simp)

/-- The classes from `residue` on. The class before starts inside the run, so
this one starts at most a step of `p` after it. -/
theorem residueParts_answers (hc : Fits common) (hcount : common.count ≠ 0)
    (hlast : commonLast = common.first + (common.count - 1) * common.step) (hroom : commonLast + p.step < i64Limit)
    (n residue : Nat) (hbelow : (residue + n : Nat) * p.step ≤ common.step)
    (hstart : common.first + (residue - 1) * p.step ≤ commonLast) :
    Answers (residueParts p common commonLast (List.range' residue n)) fun parts => ∀ part ∈ parts, Fits part := by
  have hpos := p.step_pos
  have hfirst := hc.first
  have hlimit := hc.step
  induction n generalizing residue with
  | zero => exact .pure (by simp)
  | succ n ih =>
    rw [List.range'_succ, residueParts]
    have hreach0 : 0 ≤ (residue : Int) * p.step := mul_nonneg (Int.natCast_nonneg _) hpos.le
    have hreach : (residue : Int) * p.step ≤ common.step := by
      refine le_trans (mul_le_mul_of_nonneg_right ?_ hpos.le) hbelow
      exact_mod_cast Nat.le_add_right _ _
    rw [sub_one_mul] at hstart
    unfold IsI64 at hfirst
    rw [plain_eq (by unfold IsI64; omega), pure_bind, plain_eq (by unfold IsI64; omega), pure_bind]
    split
    · exact .pure (by simp)
    · obtain ⟨r, hr, hfits⟩ := run_fits hc hcount (show common.first ≤ common.first + residue * p.step by omega)
        (show common.first + residue * p.step ≤ commonLast by omega) le_rfl hlimit hlast.le
      rw [hr, pure_bind]
      refine (ih (residue + 1) ?_ ?_).bind fun rest hrest => .pure fun part hpart => ?_
      · rwa [Nat.add_right_comm, Nat.add_assoc]
      · rw [Nat.cast_succ, add_sub_cancel_right]
        omega
      · rcases List.mem_cons.1 hpart with rfl | hpart
        · exact hfits
        · exact hrest part hpart

/-- The parts, where the element a step after the last common one is an `i64`. -/
theorem difference_answers (hp : Fits p) (hq : Fits q) (hroom : ∀ x ∈ p, x ∈ q → x + p.step < i64Limit) :
    Answers (difference p q) fun parts => ∀ part ∈ parts, Fits part := by
  unfold difference
  refine ((intersect_answers hp hq).and_pure fun common => intersect_spec).bind fun common ⟨hc, hmem, hdvd⟩ => ?_
  rw [last_of_fits hc, pure_bind]
  unfold Progression.firstOf Progression.lastOf
  by_cases hne : common.count = 0
  · rw [if_pos hne]
    exact .pure fun part hpart => List.mem_singleton.1 hpart ▸ hp
  rw [if_neg hne, if_neg hne]
  simp only
  have hpos := p.step_pos
  have hlastMem : common.first + (common.count - 1) * common.step ∈ common :=
    ⟨common.count - 1, by omega, by rw [Nat.cast_sub (by omega)]; rfl⟩
  have hfirstP := ((hmem _).1 (Progression.first_mem hne)).1
  obtain ⟨hlastP, hlastQ⟩ := (hmem _).1 hlastMem
  have hlastRoom := hroom _ hlastP hlastQ
  refine (partBefore_answers hp hfirstP).bind fun before hbefore => (partAfter_answers hp hlastP hlastRoom).bind
    fun after hafter => ?_
  split
  · exact .inr ⟨(), rfl, trivial⟩
  have hclasses := residueParts_answers (p := p) hc hne rfl hlastRoom ((common.step.tdiv p.step).toNat - 1) 1 ?_ ?_
  · refine hclasses.bind fun residues hresidues => .pure fun part hpart => ?_
    rcases List.mem_append.1 hpart with hpart | hpart
    · exact (List.mem_append.1 hpart).elim (hbefore part) (hafter part)
    · exact hresidues part hpart
  · obtain ⟨ratio, hratio⟩ := hdvd hne
    have hratioPos : 0 < ratio := by
      have := common.step_pos
      rw [hratio] at this
      exact (pos_iff_pos_of_mul_pos this).1 hpos
    rw [hratio, Int.mul_tdiv_cancel_left _ hpos.ne', show 1 + (ratio.toNat - 1) = ratio.toNat by omega,
      Int.toNat_of_nonneg hratioPos.le, mul_comm]
  · have := reach_nonneg hne
    simp only [Nat.cast_one, sub_self, zero_mul]
    omega

end Difference

/-! ## Every progression of the constructors -/

theorem Recipe.progression_answers {recipe : Recipe} (ha : recipe.Arguments) (hn : recipe.Narrow) :
    Answers recipe.progression fun p => Fits p ∧ ∀ x, x ∈ p ↔ recipe.Elements x := by
  induction recipe with
  | range lower step upper => exact (range_answers ha.1 hn).and_pure fun p h x => mem_range h
  | single value => exact .pure ⟨fits_single ha, fun x => Progression.mem_single⟩
  | affineImage recipe a b ih =>
    refine (ih ha.1 hn.1).bind fun p ⟨hp, hmem⟩ => ?_
    have hnarrow : ∀ x ∈ p, ∀ y ∈ p, a * (x - y) < i64Limit := fun x hx y hy =>
      hn.2 x y ((hmem x).1 hx) ((hmem y).1 hy)
    refine (affineImage_answers hp hnarrow).and_pure fun image himage x => ?_
    rw [mem_affineImage himage]
    exact exists_congr fun v => and_congr_left fun _ => hmem v
  | intersect lhs rhs ihl ihr =>
    refine (ihl ha.1 hn.1).bind fun p ⟨hp, hmem⟩ => (ihr ha.2 hn.2).bind fun q ⟨hq, hmem'⟩ => ?_
    refine (intersect_answers hp hq).and_pure fun common hcommon x => ?_
    rw [(intersect_spec hcommon).1 x, hmem x, hmem' x]
    rfl

theorem last_answers (hp : Fits p) : Answers (last p) fun result =>
    (result = none ∧ ∀ x, x ∉ p) ∨ ∃ v, result = some v ∧ IsGreatest {x | x ∈ p} v := by
  rw [last_of_fits hp, Progression.lastOf]
  refine .pure ?_
  split
  · next hzero => exact .inl ⟨rfl, fun x => Progression.not_mem_of_count hzero⟩
  · next hne =>
    refine .inr ⟨_, rfl, ⟨p.count - 1, by omega, by rw [Nat.cast_sub (by omega)]; rfl⟩, fun x hx => Progression.le_last hx⟩

/-- Without a range of `2^63` elements, an image wider than `i64::MAX` or a
common element less than a step below the end of `i64`, every operation answers
what it is to. -/
theorem progressions_exact (recipe other : Recipe) (ha : recipe.Arguments) (hn : recipe.Narrow) (ha' : other.Arguments)
    (hn' : other.Narrow) :
    (Answers recipe.progression fun p => Fits p ∧ (∀ x, x ∈ p ↔ recipe.Elements x) ∧ (∀ x ∈ p, IsI64 x) ∧
      Answers (last p) fun result =>
        (result = none ∧ ∀ x, x ∉ p) ∨ ∃ v, result = some v ∧ IsGreatest {x | x ∈ p} v) ∧
    ∀ p q, recipe.progression = pure p → other.progression = pure q → (∀ x ∈ p, x ∈ q → x + p.step < i64Limit) →
      Answers (difference p q) fun parts =>
        (∀ part ∈ parts, Fits part) ∧ (∀ x, AnyPart parts x ↔ recipe.Elements x ∧ ¬ other.Elements x) ∧
          Separate parts := by
  constructor
  · refine (Recipe.progression_answers ha hn).mono (fun p ⟨hp, hmem⟩ => ?_) fun _ h => h
    exact ⟨hp, hmem, fun x => hp.mem, last_answers hp⟩
  · intro p q hp hq hroom
    obtain ⟨hfp, hmp⟩ := (Recipe.progression_answers ha hn).of_pure hp
    obtain ⟨hfq, hmq⟩ := (Recipe.progression_answers ha' hn').of_pure hq
    refine ((difference_answers hfp hfq hroom).and_pure fun parts => difference_spec).mono
      (fun parts ⟨hfits, helements, hseparate⟩ => ⟨hfits, fun x => ?_, hseparate⟩) fun _ h => h
    rw [helements x, hmp x, hmq x]

theorem progressions_exact_odd :
    (Answers (Recipe.range 1 2 9).progression fun p => Fits p ∧ (∀ x, x ∈ p ↔ InRange 1 2 9 x) ∧ (∀ x ∈ p, IsI64 x) ∧
      Answers (last p) fun result =>
        (result = none ∧ ∀ x, x ∉ p) ∨ ∃ v, result = some v ∧ IsGreatest {x | x ∈ p} v) ∧
    Answers (difference ⟨1, 2, 5, by decide⟩ (.single 5)) fun parts =>
      (∀ part ∈ parts, Fits part) ∧ (∀ x, AnyPart parts x ↔ InRange 1 2 9 x ∧ ¬ x = 5) ∧ Separate parts := by
  have ha : (Recipe.range 1 2 9).Arguments := ⟨by decide, by decide, by decide⟩
  have hn : (Recipe.range 1 2 9).Narrow := ⟨by decide, by decide⟩
  have h := progressions_exact (.range 1 2 9) (.single 5) ha hn (show IsI64 5 by decide) trivial
  refine ⟨h.1, h.2 _ _ rfl rfl fun x _ hx => ?_⟩
  rw [Progression.mem_single.1 hx]
  decide

theorem not_range_answers_whole : ¬ ∀ recipe : Recipe, recipe.Arguments →
    Answers recipe.progression fun p => ∀ x, x ∈ p ↔ recipe.Elements x := by
  intro h
  have hpanic : (Recipe.range 0 1 (i64Limit - 1)).progression = ExceptT.mk none := rfl
  rcases h (.range 0 1 (i64Limit - 1)) ⟨by decide, by decide, by decide⟩ with ⟨p, hp, -⟩ | ⟨e, he, -⟩
  · exact nomatch hpanic.symm.trans hp
  · exact nomatch hpanic.symm.trans he

end Checked

end Rumoca.Core
