import Rumoca.Core.Progression
import Rumoca.Lib.Loop
/-!
# Progressions with the overflow of each operator

The operations of `Progression` as the source computes them, with an operator
that is not checked apart from one that is: the first panics outside `i64`, the
second makes the operation answer `None`. What an operation returns is stated by
its elements; when it cannot panic is a matter of its own.
-/

namespace Rumoca.Core

open Rumoca.Lib

/-- A panic (`none`), `None` of the source, or a result. -/
abbrev Checked (α : Type) := ExceptT Unit Option α

namespace Checked

def plain (z : Int) : Checked Int := ExceptT.mk ((checkedI64 z).map .ok)

/-- A checked operation and `?`. -/
def tried (z : Int) : Checked Int :=
  match checkedI64 z with
  | some z => pure z
  | none => throw ()

/-- The record with these fields. A negative count or a step that does not
ascend is a panic here; the source would keep it. -/
def ofParts (first step count : Int) : Checked Progression :=
  if h : 0 < step ∧ 0 ≤ count then pure ⟨first, step, count.toNat, h.1⟩ else ExceptT.mk none

/-- The progression that starts at `first` and does not pass `last`. -/
def run (first step last : Int) : Checked Progression := do
  let width ← plain (last - first)
  let count ← plain (width.tdiv step + 1)
  ofParts first step count

def range (lower step upper : Int) : Checked Progression :=
  if step = 0 then throw ()
  else do
    let magnitude ← tried |step|
    if 0 < step then
      if upper < lower then return .empty
      let span ← tried (upper - lower)
      let reach ← tried (span.tdiv magnitude * magnitude)
      let last ← tried (lower + reach)
      run lower magnitude last
    else
      if lower < upper then return .empty
      let span ← tried (lower - upper)
      let reach ← tried (span.tdiv magnitude * magnitude)
      let first ← tried (lower - reach)
      run first magnitude lower

def last (p : Progression) : Checked (Option Int) :=
  if p.count = 0 then pure none
  else do
    let steps ← plain (p.count - 1)
    let reach ← plain (steps * p.step)
    some <$> plain (p.first + reach)

/-- `a * value + b`. -/
def scaled (a value b : Int) : Checked Int := do
  let product ← tried (a * value)
  tried (product + b)

def affineImage (p : Progression) (a b : Int) : Checked Progression :=
  if p.count = 0 then pure .empty
  else if a = 0 ∨ p.count = 1 then Progression.single <$> scaled a p.first b
  else do
    let first ← scaled a p.first b
    match ← last p with
    | none => throw ()
    | some last =>
      let last ← scaled a last b
      let step ← tried (a * p.step)
      let step ← tried |step|
      ofParts (min first last) step p.count

/-- Euclid's algorithm; every call but the first has a smaller second argument. -/
def extendedGcd : (fuel : Nat) → (a b : Int) → Checked (Int × Int × Int)
  | 0, _, _ => ExceptT.mk none
  | fuel + 1, a, b =>
    if b = 0 then pure (a, 1, 0)
    else do
      let (gcd, x, y) ← extendedGcd fuel b (a.tmod b)
      let product ← plain (a.tdiv b * y)
      let y' ← plain (x - product)
      pure (gcd, y, y')

/-- The part of `intersect` between `lower` and `upper`. -/
def meetBetween (p q : Progression) (lower upper : Int) : Checked Progression := do
  let (gcd, x, _) ← extendedGcd (q.step.toNat + 1) p.step q.step
  let difference ← tried (q.first - p.first)
  if difference.tmod gcd ≠ 0 then return .empty
  let step ← tried (p.step.tdiv gcd * q.step)
  let multiplier := (difference.tdiv gcd * x).tmod (q.step.tdiv gcd)
  let anchor := p.first + multiplier * p.step
  let offset := (anchor - lower) % step
  let first ← tried (lower + offset)
  if upper < first then return .empty
  run first step upper

def intersect (p q : Progression) : Checked Progression := do
  match ← last p, ← last q with
  | some pLast, some qLast =>
    let lower := max p.first q.first
    let upper := min pLast qLast
    if upper < lower then return .empty
    meetBetween p q lower upper
  | _, _ => return .empty

/-- The residue classes `residues` of `p` inside the common run, up to the first that is empty. -/
def residueParts (p common : Progression) (commonLast : Int) : List Nat → Checked (List Progression)
  | [] => pure []
  | residue :: residues => do
    let reach ← plain (residue * p.step)
    let first ← plain (common.first + reach)
    if commonLast < first then return []
    let part ← run first common.step commonLast
    let rest ← residueParts p common commonLast residues
    return part :: rest

def residueLimit : Int := 64

/-- The elements of `p` before the common run. -/
def partBefore (p common : Progression) : Checked (List Progression) := do
  let width ← plain (common.first - p.first)
  if 0 < width.tdiv p.step then return [← ofParts p.first p.step (width.tdiv p.step)] else return []

def spanCount (step : Int) : Option Int → Checked Int
  | none => pure 0
  | some span => if span < 0 then pure 0 else plain (span.tdiv step + 1)

/-- The elements of `p` after the common run. -/
def partAfter (p : Progression) (commonLast : Int) : Checked (List Progression) := do
  let afterFirst ← plain (commonLast + p.step)
  match ← last p with
  | none => throw ()
  | some last =>
    let after ← spanCount p.step (checkedI64 (last - afterFirst))
    if 0 < after then return [← ofParts afterFirst p.step after] else return []

/-- The elements of `p` that are not in `q`, as progressions without a common element. -/
def difference (p q : Progression) : Checked (List Progression) := do
  let common ← intersect p q
  match common.firstOf, ← last common with
  | some _, some commonLast =>
    let before ← partBefore p common
    let after ← partAfter p commonLast
    let ratio := common.step.tdiv p.step
    if residueLimit < ratio then throw ()
    let residues ← residueParts p common commonLast (List.range' 1 (ratio.toNat - 1))
    return before ++ after ++ residues
  | _, _ => return [p]

/-! ## Single operators -/

variable {z w : Int} {p q r : Progression} {x : Int}

theorem plain_eq (h : IsI64 z) : plain z = pure z := by
  rw [plain, checkedI64_eq_some.2 ⟨rfl, h.1, h.2⟩]
  rfl

theorem plain_eq_pure (h : plain z = pure w) : w = z ∧ IsI64 z := by
  unfold plain at h
  cases hz : checkedI64 z with
  | none =>
    rw [hz] at h
    exact nomatch h
  | some v =>
    rw [hz] at h
    obtain ⟨rfl, hlo, hhi⟩ := checkedI64_eq_some.1 hz
    exact ⟨(pure_injective h).symm, hlo, hhi⟩

theorem tried_eq (h : IsI64 z) : tried z = pure z := by
  rw [tried, checkedI64_eq_some.2 ⟨rfl, h.1, h.2⟩]

theorem tried_eq_pure (h : tried z = pure w) : w = z ∧ IsI64 z := by
  unfold tried at h
  cases hz : checkedI64 z with
  | none =>
    rw [hz] at h
    exact nomatch Option.some.inj h
  | some v =>
    rw [hz] at h
    obtain ⟨rfl, hlo, hhi⟩ := checkedI64_eq_some.1 hz
    exact ⟨(pure_injective h).symm, hlo, hhi⟩

theorem ofParts_eq_pure {first step count : Int} (h : ofParts first step count = pure p) :
    p.first = first ∧ p.step = step ∧ (p.count : Int) = count := by
  unfold ofParts at h
  split at h
  · next hvalid =>
    obtain rfl := pure_injective h
    exact ⟨rfl, rfl, Int.toNat_of_nonneg hvalid.2⟩
  · exact absurd h panic_ne_pure

theorem mem_iff_dvd {first step last : Int} (hfirst : p.first = first) (hstep : p.step = step)
    (hcount : (p.count : Int) = (last - first) / step + 1) : x ∈ p ↔ first ≤ x ∧ x ≤ last ∧ step ∣ x - first := by
  subst hfirst hstep
  have hpos := p.step_pos
  rw [Progression.mem_iff]
  constructor
  · rintro ⟨k, hk, rfl⟩
    have hle : (k : Int) ≤ (last - p.first) / p.step := by omega
    rw [Int.le_ediv_iff_mul_le hpos] at hle
    have hnonneg := mul_nonneg (Int.natCast_nonneg k) hpos.le
    exact ⟨by omega, by omega, ⟨k, by ring⟩⟩
  · rintro ⟨hlo, hhi, m, hm⟩
    have hm0 : 0 ≤ m := by
      by_contra hneg
      have : p.step * m < 0 := mul_neg_of_pos_of_neg hpos (by omega)
      omega
    have hle : m ≤ (last - p.first) / p.step := by
      rw [Int.le_ediv_iff_mul_le hpos, mul_comm]
      omega
    refine ⟨m.toNat, by omega, ?_⟩
    rw [Int.toNat_of_nonneg hm0, mul_comm]
    omega

theorem run_fields {first step last : Int} (hle : first ≤ last) (h : run first step last = pure p) :
    p.first = first ∧ p.step = step ∧ (p.count : Int) = (last - first) / step + 1 := by
  obtain ⟨width, hwidth, h⟩ := bind_eq_pure h
  obtain ⟨count, hcount, h⟩ := bind_eq_pure h
  obtain ⟨rfl, -⟩ := plain_eq_pure hwidth
  obtain ⟨rfl, -⟩ := plain_eq_pure hcount
  rw [Int.tdiv_eq_ediv_of_nonneg (by omega)] at h
  exact ofParts_eq_pure h

theorem mem_run {first step last : Int} (hle : first ≤ last) (h : run first step last = pure p) :
    x ∈ p ↔ first ≤ x ∧ x ≤ last ∧ step ∣ x - first := by
  obtain ⟨hfirst, hstep, hcount⟩ := run_fields hle h
  exact mem_iff_dvd hfirst hstep hcount

theorem last_eq_pure {result : Option Int} (h : last p = pure result) : result = p.lastOf := by
  unfold last at h
  unfold Progression.lastOf
  split at h
  · next hzero =>
    rw [if_pos hzero]
    exact (pure_injective h).symm
  · next hne =>
    obtain ⟨steps, hsteps, h⟩ := bind_eq_pure h
    obtain ⟨reach, hreach, h⟩ := bind_eq_pure h
    obtain ⟨rfl, -⟩ := plain_eq_pure hsteps
    obtain ⟨rfl, -⟩ := plain_eq_pure hreach
    rw [if_neg hne]
    rw [map_eq_pure_bind] at h
    obtain ⟨value, hvalue, h⟩ := bind_eq_pure h
    obtain ⟨rfl, -⟩ := plain_eq_pure hvalue
    exact (pure_injective h).symm

theorem mem_iff_last {lastValue : Int} (h : p.lastOf = some lastValue) :
    x ∈ p ↔ p.first ≤ x ∧ x ≤ lastValue ∧ p.step ∣ x - p.first := by
  obtain ⟨hcount, rfl⟩ := Progression.lastOf_eq_some h
  refine mem_iff_dvd rfl rfl ?_
  rw [add_sub_cancel_left, Int.mul_ediv_cancel _ p.step_pos.ne']
  omega

/-! ## Ranges and images -/

/-- The multiples of the step from `lower` that do not pass `upper`. -/
def InRange (lower step upper x : Int) : Prop :=
  (∃ k : Nat, x = lower + k * step) ∧ (0 < step → x ≤ upper) ∧ (step < 0 → upper ≤ x)

theorem mem_range {lower step upper : Int} (h : range lower step upper = pure p) : x ∈ p ↔ InRange lower step upper x := by
  unfold range at h
  split at h
  · exact nomatch Option.some.inj h
  next hne =>
  obtain ⟨magnitude, hmagnitude, h⟩ := bind_eq_pure h
  obtain ⟨rfl, -⟩ := tried_eq_pure hmagnitude
  split at h
  · next hpos =>
    rw [abs_of_pos hpos] at h
    split at h
    · next hempty =>
      obtain rfl := pure_injective h
      refine iff_of_false Progression.not_mem_empty ?_
      rintro ⟨⟨k, rfl⟩, hle, -⟩
      have := hle hpos
      have := mul_nonneg (Int.natCast_nonneg k) hpos.le
      omega
    next hle =>
    obtain ⟨span, hspan, h⟩ := bind_eq_pure h
    obtain ⟨reach, hreach, h⟩ := bind_eq_pure h
    obtain ⟨last, hlast, h⟩ := bind_eq_pure h
    obtain ⟨rfl, -⟩ := tried_eq_pure hspan
    obtain ⟨rfl, -⟩ := tried_eq_pure hreach
    obtain ⟨rfl, -⟩ := tried_eq_pure hlast
    rw [Int.tdiv_eq_ediv_of_nonneg (by omega)] at h
    have hreach : 0 ≤ (upper - lower) / step * step := mul_nonneg (Int.ediv_nonneg (by omega) hpos.le) hpos.le
    rw [mem_run (by omega) h]
    constructor
    · rintro ⟨hlo, hhi, m, hm⟩
      have hdiv := Int.ediv_mul_le (upper - lower) hpos.ne'
      have hm0 : 0 ≤ m := by
        by_contra hneg
        have : step * m < 0 := mul_neg_of_pos_of_neg hpos (by omega)
        omega
      refine ⟨⟨m.toNat, ?_⟩, fun _ => by omega, fun hneg => absurd hneg (by omega)⟩
      rw [Int.toNat_of_nonneg hm0, mul_comm]
      omega
    · rintro ⟨⟨k, rfl⟩, hle', -⟩
      have hk := mul_nonneg (Int.natCast_nonneg k) hpos.le
      have hquot : (k : Int) ≤ (upper - lower) / step := by
        rw [Int.le_ediv_iff_mul_le hpos]
        have := hle' hpos
        omega
      have := mul_le_mul_of_nonneg_right hquot hpos.le
      exact ⟨by omega, by omega, ⟨k, by ring⟩⟩
  · next hnpos =>
    have hneg : step < 0 := by omega
    have hmag : 0 < -step := by omega
    rw [abs_of_neg hneg] at h
    split at h
    · next hempty =>
      obtain rfl := pure_injective h
      refine iff_of_false Progression.not_mem_empty ?_
      rintro ⟨⟨k, rfl⟩, -, hle⟩
      have := hle hneg
      have := mul_nonneg (Int.natCast_nonneg k) hmag.le
      have : (k : Int) * -step = -(k * step) := by ring
      omega
    next hle =>
    obtain ⟨span, hspan, h⟩ := bind_eq_pure h
    obtain ⟨reach, hreach, h⟩ := bind_eq_pure h
    obtain ⟨first, hfirst, h⟩ := bind_eq_pure h
    obtain ⟨rfl, -⟩ := tried_eq_pure hspan
    obtain ⟨rfl, -⟩ := tried_eq_pure hreach
    obtain ⟨rfl, -⟩ := tried_eq_pure hfirst
    rw [Int.tdiv_eq_ediv_of_nonneg (by omega)] at h
    set quot := (lower - upper) / -step with hquot
    have hquot0 : 0 ≤ quot := Int.ediv_nonneg (by omega) hmag.le
    have hreach : 0 ≤ quot * -step := mul_nonneg hquot0 hmag.le
    rw [mem_run (by omega) h]
    constructor
    · rintro ⟨hlo, hhi, m, hm⟩
      have hdiv := Int.ediv_mul_le (lower - upper) hmag.ne'
      rw [← hquot] at hdiv
      -- counted down from `lower`, the multiple is `quot - m`
      have hx : x = lower + (quot - m) * step := by
        have : -step * m = x - (lower - quot * -step) := hm.symm
        linarith
      have hm0 : 0 ≤ quot - m := by
        by_contra hlt
        have : 0 < (quot - m) * step := mul_pos_of_neg_of_neg (by omega) hneg
        omega
      refine ⟨⟨(quot - m).toNat, by rw [Int.toNat_of_nonneg hm0]; exact hx⟩, fun hp => absurd hp (by omega), fun _ => ?_⟩
      omega
    · rintro ⟨⟨k, rfl⟩, -, hle'⟩
      have hk := mul_nonneg (Int.natCast_nonneg k) hmag.le
      have hkneg : (k : Int) * -step = -(k * step) := by ring
      have hkq : (k : Int) ≤ quot := by
        rw [hquot, Int.le_ediv_iff_mul_le hmag]
        have := hle' hneg
        omega
      have := mul_le_mul_of_nonneg_right hkq hmag.le
      exact ⟨by omega, by omega, ⟨quot - k, by ring⟩⟩

theorem scaled_eq_pure {a value b : Int} (h : scaled a value b = pure z) : z = a * value + b ∧ IsI64 (a * value) ∧ IsI64 z := by
  obtain ⟨product, hproduct, h⟩ := bind_eq_pure h
  obtain ⟨rfl, hi⟩ := tried_eq_pure hproduct
  obtain ⟨rfl, hi'⟩ := tried_eq_pure h
  exact ⟨rfl, hi, hi'⟩

theorem scaled_value {a value b : Int} (h : scaled a value b = pure z) : Progression.scaled a value b = some z := by
  obtain ⟨rfl, hi, hi'⟩ := scaled_eq_pure h
  simp only [Progression.scaled, checkedI64_eq_some.2 ⟨rfl, hi.1, hi.2⟩, checkedI64_eq_some.2 ⟨rfl, hi'.1, hi'.2⟩,
    Option.bind_eq_bind, Option.bind_some]

theorem affineImage_value {a b : Int} (h : affineImage p a b = pure q) : p.affineImage a b = some q := by
  unfold affineImage at h
  unfold Progression.affineImage
  split at h
  · next hzero =>
    rw [if_pos hzero]
    exact congrArg some (pure_injective h)
  next hne =>
  rw [if_neg hne]
  split at h
  · next hone =>
    rw [dif_pos hone]
    rw [map_eq_pure_bind] at h
    obtain ⟨value, hvalue, h⟩ := bind_eq_pure h
    obtain rfl := pure_injective h
    rw [scaled_value hvalue]
    rfl
  · next hmany =>
    rw [dif_neg hmany]
    obtain ⟨first, hfirst, h⟩ := bind_eq_pure h
    obtain ⟨lastOption, hlast, h⟩ := bind_eq_pure h
    cases lastOption with
    | none => exact nomatch Option.some.inj h
    | some lastValue =>
      simp only at h
      obtain ⟨last, hlast', h⟩ := bind_eq_pure h
      obtain ⟨step, hstep, h⟩ := bind_eq_pure h
      obtain ⟨magnitude, hmagnitude, h⟩ := bind_eq_pure h
      obtain ⟨rfl, hi⟩ := tried_eq_pure hstep
      obtain ⟨rfl, hi'⟩ := tried_eq_pure hmagnitude
      obtain ⟨h₁, h₂, h₃⟩ := ofParts_eq_pure h
      simp only [scaled_value hfirst, ← last_eq_pure hlast, scaled_value hlast', checkedI64_eq_some.2 ⟨rfl, hi.1, hi.2⟩,
        checkedI64_eq_some.2 ⟨rfl, hi'.1, hi'.2⟩, Option.bind_eq_bind, Option.bind_some, Option.pure_def, Option.some.injEq]
      obtain ⟨qf, qs, qc, qpos⟩ := q
      simp only [Int.natCast_inj] at h₁ h₂ h₃
      subst h₁ h₂ h₃
      rfl

theorem mem_affineImage {a b : Int} (h : affineImage p a b = pure q) : x ∈ q ↔ ∃ v ∈ p, x = a * v + b :=
  Progression.mem_affineImage (affineImage_value h)

/-! ## Common elements -/

/-- Bézout's identity for what Euclid's algorithm returns. -/
theorem extendedGcd_spec {fuel : Nat} {a b gcd x y : Int} (ha : 0 ≤ a) (hb : 0 ≤ b) (hab : 0 < a ∨ 0 < b)
    (h : extendedGcd fuel a b = pure (gcd, x, y)) : a * x + b * y = gcd ∧ gcd ∣ a ∧ gcd ∣ b ∧ 0 < gcd := by
  induction fuel generalizing a b gcd x y with
  | zero => exact nomatch h
  | succ fuel ih =>
    rw [extendedGcd] at h
    split at h
    · next hzero =>
      obtain ⟨rfl, rfl, rfl⟩ := by simpa using pure_injective h
      subst hzero
      exact ⟨by ring, dvd_refl _, dvd_zero _, by omega⟩
    · next hne =>
      obtain ⟨⟨g, x', y'⟩, hrec, h⟩ := bind_eq_pure h
      simp only at h
      obtain ⟨product, hproduct, h⟩ := bind_eq_pure h
      obtain ⟨second, hsecond, h⟩ := bind_eq_pure h
      obtain ⟨rfl, -⟩ := plain_eq_pure hproduct
      obtain ⟨rfl, -⟩ := plain_eq_pure hsecond
      obtain ⟨rfl, rfl, rfl⟩ := by simpa using pure_injective h
      have hbpos : 0 < b := by omega
      rw [Int.tmod_eq_emod_of_nonneg ha] at hrec
      obtain ⟨hbezout, hdb, hdr, hpos⟩ := ih hb (Int.emod_nonneg a hne) (.inl hbpos) hrec
      have hsplit := Int.emod_add_mul_ediv a b
      rw [Int.tdiv_eq_ediv_of_nonneg ha]
      refine ⟨?_, ?_, hdb, hpos⟩
      · calc a * y' + b * (x' - a / b * y') = b * x' + (a - b * (a / b)) * y' := by ring
          _ = b * x' + a % b * y' := by rw [sub_eq_of_eq_add hsplit.symm]
          _ = g := hbezout
      · have := dvd_add hdr (Dvd.dvd.mul_right hdb (a / b))
        rwa [hsplit] at this

/-- Two progressions of residues with a common element: their common elements are one residue class. -/
theorem dvd_common_iff {a b gcd u v f f' anchor z : Int} (hbezout : a * u + b * v = gcd) (hga : gcd ∣ a) (hgb : gcd ∣ b)
    (hgcd : 0 < gcd) (hanchor : a ∣ anchor - f) (hanchor' : b ∣ anchor - f') :
    (a / gcd * b ∣ z - anchor) ↔ a ∣ z - f ∧ b ∣ z - f' := by
  obtain ⟨a', rfl⟩ := hga
  obtain ⟨b', rfl⟩ := hgb
  rw [Int.mul_ediv_cancel_left _ hgcd.ne']
  have hone : a' * u + b' * v = 1 := by
    have : gcd * (a' * u + b' * v) = gcd * 1 := by
      rw [mul_one]
      linarith [hbezout]
    exact mul_left_cancel₀ hgcd.ne' this
  constructor
  · intro h
    refine ⟨?_, ?_⟩
    · have : gcd * a' ∣ z - anchor := Dvd.dvd.trans ⟨b', by ring⟩ h
      have := dvd_add this hanchor
      rwa [sub_add_sub_cancel] at this
    · have : gcd * b' ∣ z - anchor := Dvd.dvd.trans ⟨a', by ring⟩ h
      have := dvd_add this hanchor'
      rwa [sub_add_sub_cancel] at this
  · rintro ⟨h, h'⟩
    have h₁ : gcd * a' ∣ z - anchor := by
      have := dvd_sub h hanchor
      rwa [sub_sub_sub_cancel_right] at this
    have h₂ : gcd * b' ∣ z - anchor := by
      have := dvd_sub h' hanchor'
      rwa [sub_sub_sub_cancel_right] at this
    obtain ⟨k, hk⟩ := h₁
    obtain ⟨l, hl⟩ := h₂
    refine ⟨l * u + k * v, ?_⟩
    calc z - anchor = (z - anchor) * (a' * u + b' * v) := by rw [hone, mul_one]
      _ = (z - anchor) * (a' * u) + (z - anchor) * (b' * v) := by ring
      _ = gcd * b' * l * (a' * u) + gcd * a' * k * (b' * v) := by rw [← hl, ← hk]
      _ = a' * (gcd * b') * (l * u + k * v) := by ring

/-- The common elements lie between the greater start and the lesser end. -/
theorem mem_meetBetween {lower upper : Int} (h : meetBetween p q lower upper = pure r) :
    (∀ x, x ∈ r ↔ lower ≤ x ∧ x ≤ upper ∧ p.step ∣ x - p.first ∧ q.step ∣ x - q.first) ∧ (r.count ≠ 0 → p.step ∣ r.step) := by
  obtain ⟨⟨gcd, u, v⟩, hgcd, h⟩ := bind_eq_pure h
  simp only at h
  obtain ⟨difference, hdifference, h⟩ := bind_eq_pure h
  obtain ⟨rfl, -⟩ := tried_eq_pure hdifference
  have hp := p.step_pos
  have hq := q.step_pos
  obtain ⟨hbezout, hga, hgb, hpos⟩ := extendedGcd_spec hp.le hq.le (.inl hp) hgcd
  split at h
  · next hmod =>
    obtain rfl := pure_injective h
    refine ⟨fun x => iff_of_false Progression.not_mem_empty ?_, fun h => absurd rfl h⟩
    rintro ⟨-, -, hx, hx'⟩
    have hsub := dvd_sub (hga.trans hx) (hgb.trans hx')
    rw [sub_sub_sub_cancel_left] at hsub
    exact hmod (Int.tmod_eq_zero_of_dvd hsub)
  next hmod =>
  rw [not_not] at hmod
  obtain ⟨step, hstep, h⟩ := bind_eq_pure h
  obtain ⟨rfl, -⟩ := tried_eq_pure hstep
  obtain ⟨first, hfirst, h⟩ := bind_eq_pure h
  obtain ⟨rfl, -⟩ := tried_eq_pure hfirst
  set step := p.step.tdiv gcd * q.step with hstepdef
  set multiplier := ((q.first - p.first).tdiv gcd * u).tmod (q.step.tdiv gcd) with hmultiplier
  set anchor := p.first + multiplier * p.step with hanchor
  rw [Int.tdiv_eq_ediv_of_nonneg hp.le] at hstepdef
  have hquot : 0 < p.step / gcd := Int.ediv_pos_of_pos_of_dvd hp hpos.le hga
  have hsteppos : 0 < step := by
    rw [hstepdef]
    exact mul_pos hquot hq
  -- the anchor lies in both residue classes
  have hanchor₁ : p.step ∣ anchor - p.first := ⟨multiplier, by rw [hanchor]; ring⟩
  have hanchor₂ : q.step ∣ anchor - q.first := by
    obtain ⟨d, hd⟩ := Int.dvd_of_tmod_eq_zero hmod
    obtain ⟨b', hb'⟩ := hgb
    obtain ⟨a', ha'⟩ := hga
    have hd' : (q.first - p.first).tdiv gcd = d := by rw [hd, Int.mul_tdiv_cancel_left _ hpos.ne']
    have hb'' : q.step.tdiv gcd = b' := by rw [hb', Int.mul_tdiv_cancel_left _ hpos.ne']
    have hmult : b' ∣ d * u - multiplier := by
      rw [hmultiplier, hd', hb'']
      exact ⟨(d * u).tdiv b', by have := Int.tmod_add_mul_tdiv (d * u) b'; linarith⟩
    obtain ⟨m, hm⟩ := hmult
    refine ⟨-(a' * m) - d * v, ?_⟩
    have hm' : multiplier = d * u - b' * m := by linarith
    calc anchor - q.first = (d * u - b' * m) * p.step - (q.first - p.first) := by rw [hanchor, hm']; ring
      _ = d * (p.step * u) - b' * m * p.step - gcd * d := by rw [hd]; ring
      _ = d * (gcd - q.step * v) - b' * m * p.step - gcd * d := by rw [← hbezout]; ring
      _ = q.step * (-(a' * m) - d * v) := by rw [ha', hb']; ring
  have hclass : ∀ x, step ∣ x - anchor ↔ p.step ∣ x - p.first ∧ q.step ∣ x - q.first := fun x => by
    rw [hstepdef]
    exact dvd_common_iff hbezout hga hgb hpos hanchor₁ hanchor₂
  have hoff0 : 0 ≤ (anchor - lower) % step := Int.emod_nonneg _ hsteppos.ne'
  have hofflt : (anchor - lower) % step < step := Int.emod_lt_of_pos _ hsteppos
  have hshift : step ∣ lower + (anchor - lower) % step - anchor := by
    refine ⟨-((anchor - lower) / step), ?_⟩
    have := Int.emod_add_mul_ediv (anchor - lower) step
    linarith
  -- the first common element is the least of its class from `lower` on
  have hmem : ∀ x, lower ≤ x ∧ x ≤ upper ∧ p.step ∣ x - p.first ∧ q.step ∣ x - q.first ↔
      lower + (anchor - lower) % step ≤ x ∧ x ≤ upper ∧ step ∣ x - (lower + (anchor - lower) % step) := by
    intro x
    have hiff : step ∣ x - (lower + (anchor - lower) % step) ↔ step ∣ x - anchor := by
      constructor
      · intro hx
        have := dvd_add hx hshift
        rwa [sub_add_sub_cancel] at this
      · intro hx
        have := dvd_sub hx hshift
        rwa [sub_sub_sub_cancel_right] at this
    rw [← hclass x, hiff]
    refine ⟨fun ⟨hlo, hhi, hd⟩ => ⟨?_, hhi, hd⟩, fun ⟨hlo, hhi, hd⟩ => ⟨by omega, hhi, hd⟩⟩
    obtain ⟨m, hm⟩ := hiff.2 hd
    by_contra hlt
    have hm0 : m < 0 := by
      by_contra hge
      have : 0 ≤ step * m := mul_nonneg hsteppos.le (by omega)
      omega
    have : step * m ≤ step * (-1) := mul_le_mul_of_nonneg_left (by omega) hsteppos.le
    omega
  split at h
  · next hgt =>
    obtain rfl := pure_injective h
    refine ⟨fun x => iff_of_false Progression.not_mem_empty fun hx => ?_, fun h => absurd rfl h⟩
    have := (hmem x).1 hx
    omega
  · next hle =>
    refine ⟨fun x => by rw [mem_run (by omega) h, hmem x], fun _ => ?_⟩
    rw [(run_fields (by omega) h).2.1, hstepdef]
    obtain ⟨a', ha'⟩ := hga
    obtain ⟨b', hb'⟩ := hgb
    refine ⟨b', ?_⟩
    rw [ha', hb', Int.mul_ediv_cancel_left _ hpos.ne']
    ring

/-- The intersection holds the common elements; where there are some its step is a multiple of `p`'s. -/
theorem intersect_spec (h : intersect p q = pure r) : (∀ x, x ∈ r ↔ x ∈ p ∧ x ∈ q) ∧ (r.count ≠ 0 → p.step ∣ r.step) := by
  obtain ⟨pLast, hpLast, h⟩ := bind_eq_pure h
  obtain ⟨qLast, hqLast, h⟩ := bind_eq_pure h
  have hpl := last_eq_pure hpLast
  have hql := last_eq_pure hqLast
  have hempty : ∀ {t : Progression}, t.lastOf = none → ∀ x, x ∉ t := by
    intro t ht x hx
    unfold Progression.lastOf at ht
    split at ht
    · next hzero => exact Progression.not_mem_of_count hzero hx
    · cases ht
  cases pLast with
  | none =>
    obtain rfl := pure_injective h
    refine ⟨fun x => iff_of_false Progression.not_mem_empty fun hx => hempty hpl.symm x hx.1, fun h => absurd rfl h⟩
  | some pl =>
    cases qLast with
    | none =>
      obtain rfl := pure_injective h
      refine ⟨fun x => iff_of_false Progression.not_mem_empty fun hx => hempty hql.symm x hx.2, fun h => absurd rfl h⟩
    | some ql =>
      simp only at h
      have hmem : ∀ x, x ∈ p ∧ x ∈ q ↔ max p.first q.first ≤ x ∧ x ≤ min pl ql ∧ p.step ∣ x - p.first ∧
          q.step ∣ x - q.first := by
        intro x
        rw [mem_iff_last hpl.symm, mem_iff_last hql.symm, max_le_iff, le_min_iff]
        tauto
      split at h
      · next hlt =>
        obtain rfl := pure_injective h
        refine ⟨fun x => iff_of_false Progression.not_mem_empty fun hx => ?_, fun h => absurd rfl h⟩
        have := (hmem x).1 hx
        omega
      · obtain ⟨hr, hstep⟩ := mem_meetBetween h
        exact ⟨fun x => (hr x).trans (hmem x).symm, hstep⟩

/-! ## Elements of the one and not of the other -/

def AnyPart (parts : List Progression) (x : Int) : Prop := ∃ part ∈ parts, x ∈ part

def Separate (parts : List Progression) : Prop := parts.Pairwise fun part part' => ∀ x, x ∈ part → x ∉ part'

theorem anyPart_append {parts parts' : List Progression} : AnyPart (parts ++ parts') x ↔ AnyPart parts x ∨ AnyPart parts' x := by
  simp only [AnyPart, List.mem_append, or_and_right, exists_or]

theorem not_anyPart_nil : ¬ AnyPart [] x := by simp [AnyPart]

theorem anyPart_singleton : AnyPart [p] x ↔ x ∈ p := by simp [AnyPart]

theorem last_reach {lastValue : Int} (h : last p = pure (some lastValue)) : lastValue - p.first < i64Limit := by
  have hlast := last_eq_pure h
  obtain ⟨hcount, rfl⟩ := Progression.lastOf_eq_some hlast.symm
  unfold last at h
  rw [if_neg hcount] at h
  obtain ⟨steps, hsteps, h⟩ := bind_eq_pure h
  obtain ⟨reach, hreach, -⟩ := bind_eq_pure h
  obtain ⟨rfl, -⟩ := plain_eq_pure hsteps
  obtain ⟨rfl, hi⟩ := plain_eq_pure hreach
  unfold IsI64 at hi
  omega

section Difference

variable {common : Progression} {commonLast : Int} {parts : List Progression}

theorem partBefore_spec (hmem : common.first ∈ p) (h : partBefore p common = pure parts) :
    (∀ x, AnyPart parts x ↔ x ∈ p ∧ x < common.first) ∧ parts.length ≤ 1 := by
  obtain ⟨width, hwidth, h⟩ := bind_eq_pure h
  obtain ⟨rfl, -⟩ := plain_eq_pure hwidth
  obtain ⟨k, hk, hfirst⟩ := hmem
  have hpos := p.step_pos
  have hquot : (common.first - p.first).tdiv p.step = k := by
    rw [hfirst, add_sub_cancel_left, Int.mul_tdiv_cancel _ hpos.ne']
  rw [hquot] at h
  -- the elements before the `k`-th one
  have hbefore : ∀ x, (∃ j : Nat, j < k ∧ x = p.first + j * p.step) ↔ x ∈ p ∧ x < common.first := by
    intro x
    constructor
    · rintro ⟨j, hj, rfl⟩
      refine ⟨⟨j, by omega, rfl⟩, ?_⟩
      rw [hfirst]
      have := mul_lt_mul_of_pos_right (show (j : Int) < k by omega) hpos
      omega
    · rintro ⟨⟨j, -, rfl⟩, hlt⟩
      refine ⟨j, ?_, rfl⟩
      by_contra hge
      have := mul_le_mul_of_nonneg_right (show (k : Int) ≤ j by omega) hpos.le
      omega
  split at h
  · obtain ⟨part, hpart, h⟩ := bind_eq_pure h
    obtain rfl := pure_injective h
    obtain ⟨h₁, h₂, h₃⟩ := ofParts_eq_pure hpart
    refine ⟨fun x => ?_, by simp⟩
    rw [anyPart_singleton, ← hbefore x, Progression.mem_iff, h₁, h₂]
    have : part.count = k := by exact_mod_cast h₃
    rw [this]
  · next hzero =>
    obtain rfl := pure_injective h
    refine ⟨fun x => ?_, by simp⟩
    rw [← hbefore x]
    exact iff_of_false not_anyPart_nil fun ⟨j, hj, _⟩ => by omega

theorem partAfter_spec (hmem : commonLast ∈ p) (h : partAfter p commonLast = pure parts) :
    (∀ x, AnyPart parts x ↔ x ∈ p ∧ commonLast < x) ∧ parts.length ≤ 1 := by
  obtain ⟨afterFirst, hafter, h⟩ := bind_eq_pure h
  obtain ⟨rfl, -⟩ := plain_eq_pure hafter
  obtain ⟨lastOption, hlast, h⟩ := bind_eq_pure h
  cases lastOption with
  | none => exact nomatch Option.some.inj h
  | some lastValue =>
    simp only at h
    have hreach := last_reach hlast
    have hpos := p.step_pos
    have hlastOf := (last_eq_pure hlast).symm
    have hbounds := (mem_iff_last hlastOf).1 hmem
    obtain ⟨after, hcount, h⟩ := bind_eq_pure h
    -- the elements after `commonLast` start one step on
    have hafter : ∀ x, commonLast + p.step ≤ x ∧ x ≤ lastValue ∧ p.step ∣ x - (commonLast + p.step) ↔
        x ∈ p ∧ commonLast < x := by
      intro x
      have hdvd : p.step ∣ x - (commonLast + p.step) ↔ p.step ∣ x - p.first := by
        have h₁ : p.step ∣ commonLast + p.step - p.first := by
          have := dvd_add hbounds.2.2 (dvd_refl p.step)
          rwa [sub_add_eq_add_sub] at this
        constructor
        · intro hx
          have := dvd_add hx h₁
          rwa [sub_add_sub_cancel] at this
        · intro hx
          have := dvd_sub hx h₁
          rwa [sub_sub_sub_cancel_right] at this
      rw [mem_iff_last hlastOf, hdvd]
      refine ⟨fun ⟨hlo, hhi, hd⟩ => ⟨⟨by omega, hhi, hd⟩, by omega⟩, fun ⟨⟨hlo, hhi, hd⟩, hlt⟩ => ⟨?_, hhi, hd⟩⟩
      obtain ⟨m, hm⟩ := hdvd.2 hd
      by_contra hless
      have hm0 : m < 0 := by
        by_contra hge
        have : 0 ≤ p.step * m := mul_nonneg hpos.le (by omega)
        omega
      have : p.step * m ≤ p.step * (-1) := mul_le_mul_of_nonneg_left (by omega) hpos.le
      omega
    have hnone : ¬ (0 : Int) < after → lastValue - (commonLast + p.step) < 0 := by
      intro hzero
      by_contra hge
      cases hchecked : checkedI64 (lastValue - (commonLast + p.step)) with
      | none =>
        have : IsI64 (lastValue - (commonLast + p.step)) := by
          unfold IsI64 i64Limit
          unfold i64Limit at hreach
          omega
        rw [checkedI64_eq_some.2 ⟨rfl, this.1, this.2⟩] at hchecked
        cases hchecked
      | some span =>
        obtain rfl := checkedI64_value hchecked
        rw [hchecked, spanCount, if_neg hge] at hcount
        obtain ⟨rfl, -⟩ := plain_eq_pure hcount
        rw [Int.tdiv_eq_ediv_of_nonneg (by omega)] at hzero
        have : 0 ≤ (lastValue - (commonLast + p.step)) / p.step := Int.ediv_nonneg (by omega) hpos.le
        omega
    split at h
    · next hsome =>
      obtain ⟨part, hpart, h⟩ := bind_eq_pure h
      obtain rfl := pure_injective h
      obtain ⟨h₁, h₂, h₃⟩ := ofParts_eq_pure hpart
      refine ⟨fun x => ?_, by simp⟩
      rw [anyPart_singleton, ← hafter x]
      refine mem_iff_dvd h₁ h₂ ?_
      cases hchecked : checkedI64 (lastValue - (commonLast + p.step)) with
      | none =>
        rw [hchecked] at hcount
        obtain rfl := pure_injective hcount
        omega
      | some span =>
        obtain rfl := checkedI64_value hchecked
        rw [hchecked, spanCount] at hcount
        split at hcount
        · obtain rfl := pure_injective hcount
          omega
        · obtain ⟨rfl, -⟩ := plain_eq_pure hcount
          rw [h₃, Int.tdiv_eq_ediv_of_nonneg (by omega)]
    · next hzero =>
      obtain rfl := pure_injective h
      refine ⟨fun x => iff_of_false not_anyPart_nil fun hx => ?_, by simp⟩
      have := (hafter x).2 hx
      have := hnone hzero
      omega

/-- The residue class of `residue` inside the common run. -/
def InClass (p common : Progression) (commonLast : Int) (residue : Nat) (x : Int) : Prop :=
  common.first + residue * p.step ≤ x ∧ x ≤ commonLast ∧ common.step ∣ x - (common.first + residue * p.step)

theorem residueParts_spec {residues : List Nat} {ratio : Int} (hstep : common.step = ratio * p.step)
    (hsorted : residues.Pairwise (· < ·)) (hbelow : ∀ residue ∈ residues, (residue : Int) < ratio)
    (h : residueParts p common commonLast residues = pure parts) :
    (∀ x, AnyPart parts x ↔ ∃ residue ∈ residues, InClass p common commonLast residue x) ∧ Separate parts := by
  have hpos := p.step_pos
  induction residues generalizing parts with
  | nil =>
    obtain rfl := pure_injective h
    exact ⟨fun x => iff_of_false not_anyPart_nil (by simp), .nil⟩
  | cons residue residues ih =>
    obtain ⟨hless, hsorted⟩ := List.pairwise_cons.1 hsorted
    obtain ⟨reach, hreach, h⟩ := bind_eq_pure h
    obtain ⟨first, hfirst, h⟩ := bind_eq_pure h
    obtain ⟨rfl, -⟩ := plain_eq_pure hreach
    obtain ⟨rfl, -⟩ := plain_eq_pure hfirst
    split at h
    · next hpast =>
      obtain rfl := pure_injective h
      -- the later classes start even later
      refine ⟨fun x => iff_of_false not_anyPart_nil ?_, .nil⟩
      rintro ⟨r, hr, hlo, hhi, -⟩
      have hle : (residue : Int) ≤ r := by
        rcases List.mem_cons.1 hr with rfl | hr
        · exact le_refl _
        · have := hless r hr
          omega
      have := mul_le_mul_of_nonneg_right hle hpos.le
      omega
    · next hle =>
      obtain ⟨part, hpart, h⟩ := bind_eq_pure h
      obtain ⟨rest, hrest, h⟩ := bind_eq_pure h
      obtain rfl := pure_injective h
      obtain ⟨hmem, hsep⟩ := ih hsorted (fun r hr => hbelow r (by simp [hr])) hrest
      have hhead : ∀ x, x ∈ part ↔ InClass p common commonLast residue x := fun x => mem_run (by omega) hpart
      refine ⟨fun x => ?_, List.pairwise_cons.2 ⟨fun part' hpart' x hx hx' => ?_, hsep⟩⟩
      · rw [List.exists_mem_cons_iff, ← hmem x, ← hhead x, AnyPart, AnyPart, List.exists_mem_cons_iff]
      · -- two classes below the ratio differ by less than the common step
        obtain ⟨-, -, hd⟩ := (hhead x).1 hx
        obtain ⟨r, hr, -, -, hd'⟩ := (hmem x).1 ⟨part', hpart', hx'⟩
        have hlt := hless r hr
        have hrlt := hbelow r (by simp [hr])
        have hsub := dvd_sub hd hd'
        rw [hstep] at hsub
        obtain ⟨m, hm⟩ := hsub
        have hdiff : ((r : Int) - residue) * p.step = ratio * m * p.step := by linarith
        have hdiff := mul_right_cancel₀ hpos.ne' hdiff
        have hm1 : 0 < m := by
          by_contra hm0
          have : ratio * m ≤ 0 := mul_nonpos_of_nonneg_of_nonpos (by omega) (by omega)
          omega
        have : ratio * 1 ≤ ratio * m := mul_le_mul_of_nonneg_left (by omega) (by omega)
        omega

/-- Inside the common run an element of `p` is common or in one of the classes `1..ratio`. -/
theorem exists_inClass_iff {ratio : Int} (hmem : ∀ x, x ∈ common ↔ x ∈ p ∧ x ∈ q) (hlast : common.lastOf = some commonLast)
    (hfirstP : common.first ∈ p) (hlastP : commonLast ∈ p) (hratio : common.step = ratio * p.step) (hratioPos : 0 < ratio) :
    (∃ residue ∈ List.range' 1 (ratio.toNat - 1), InClass p common commonLast residue x) ↔
      (x ∈ p ∧ x ∉ q) ∧ common.first ≤ x ∧ x ≤ commonLast := by
  have hpos := p.step_pos
  have hlastOf : p.lastOf = some (p.first + (p.count - 1) * p.step) := by
    rw [Progression.lastOf, if_neg fun hzero => Progression.not_mem_of_count hzero hfirstP]
  have hpmem : x ∈ p ↔ _ := mem_iff_last hlastOf
  have hcf := Progression.first_le hfirstP
  have hcl := Progression.le_last hlastP
  obtain ⟨k, hk, hkf⟩ := hfirstP
  have hclass : common.first ≤ x → x ≤ commonLast → (x ∈ p ↔ p.step ∣ x - common.first) := by
    intro hlo hhi
    have hshift : p.step ∣ common.first - p.first := ⟨k, by rw [hkf]; ring⟩
    rw [hpmem]
    refine ⟨fun ⟨_, _, hd⟩ => ?_, fun hd => ⟨by omega, by omega, ?_⟩⟩
    · have := dvd_sub hd hshift
      rwa [sub_sub_sub_cancel_right] at this
    · have := dvd_add hd hshift
      rwa [sub_add_sub_cancel] at this
  have hcommonMem : common.first ≤ x → x ≤ commonLast → (x ∈ common ↔ common.step ∣ x - common.first) := by
    intro hlo hhi
    rw [mem_iff_last hlast]
    exact ⟨fun h => h.2.2, fun h => ⟨hlo, hhi, h⟩⟩
  constructor
  · rintro ⟨residue, hres, hlo, hhi, m, hm⟩
    rw [List.mem_range'_1] at hres
    have hnonneg : 0 ≤ (residue : Int) * p.step := mul_nonneg (Int.natCast_nonneg _) hpos.le
    have hlo' : common.first ≤ x := by omega
    have hoff : x - common.first = (residue + ratio * m) * p.step := by
      rw [hratio] at hm
      linarith
    have hxp : x ∈ p := (hclass hlo' hhi).2 ⟨residue + ratio * m, by rw [hoff]; ring⟩
    refine ⟨⟨hxp, fun hxq => ?_⟩, hlo', hhi⟩
    obtain ⟨m', hm'⟩ := (hcommonMem hlo' hhi).1 ((hmem x).2 ⟨hxp, hxq⟩)
    rw [hratio] at hm'
    have : (residue + ratio * m) * p.step = ratio * m' * p.step := by linarith
    have := mul_right_cancel₀ hpos.ne' this
    have hdiv : ratio ∣ (residue : Int) := ⟨m' - m, by linarith⟩
    have := Int.le_of_dvd (by omega) hdiv
    omega
  · rintro ⟨⟨hxp, hxq⟩, hlo, hhi⟩
    obtain ⟨j, hj⟩ := (hclass hlo hhi).1 hxp
    have hj0 : 0 ≤ j := by
      by_contra hneg
      have : p.step * j < 0 := mul_neg_of_pos_of_neg hpos (by omega)
      omega
    have hmod0 := Int.emod_nonneg j hratioPos.ne'
    have hmodlt := Int.emod_lt_of_pos j hratioPos
    have hsplit := Int.emod_add_mul_ediv j ratio
    have hcast : ((j % ratio).toNat : Int) = j % ratio := Int.toNat_of_nonneg hmod0
    have hne : j % ratio ≠ 0 := by
      intro hzero
      refine hxq ((hmem x).1 ((hcommonMem hlo hhi).2 ⟨j / ratio, ?_⟩)).2
      rw [hj, hratio, ← hsplit, hzero]
      rw [hzero] at hsplit
      simp only [zero_add, Int.mul_ediv_cancel_left _ hratioPos.ne']
      ring
    refine ⟨(j % ratio).toNat, ?_, ?_, hhi, j / ratio, ?_⟩
    · rw [List.mem_range'_1]
      omega
    · rw [hcast]
      have hquot0 : 0 ≤ ratio * (j / ratio) := mul_nonneg hratioPos.le (Int.ediv_nonneg hj0 hratioPos.le)
      have := mul_le_mul_of_nonneg_right (show j % ratio ≤ j by omega) hpos.le
      have : p.step * j = j * p.step := mul_comm _ _
      omega
    · rw [hcast, hratio]
      have : x - common.first = p.step * j := hj
      have hj' : j = j % ratio + ratio * (j / ratio) := hsplit.symm
      calc x - (common.first + j % ratio * p.step) = p.step * j - j % ratio * p.step := by rw [← this]; ring
        _ = p.step * (j % ratio + ratio * (j / ratio)) - j % ratio * p.step := by rw [← hj']
        _ = ratio * p.step * (j / ratio) := by ring

/-- The parts hold the elements of `p` that are not in `q`, no two of them the same. -/
theorem difference_spec (h : difference p q = pure parts) :
    (∀ x, AnyPart parts x ↔ x ∈ p ∧ x ∉ q) ∧ Separate parts := by
  obtain ⟨common, hcommon, h⟩ := bind_eq_pure h
  obtain ⟨hmem, hdvd⟩ := intersect_spec hcommon
  obtain ⟨lastOption, hlast, h⟩ := bind_eq_pure h
  by_cases hzero : common.count = 0
  · have hfirst : common.firstOf = none := by rw [Progression.firstOf, if_pos hzero]
    rw [hfirst] at h
    obtain rfl := pure_injective h
    refine ⟨fun x => ?_, List.pairwise_singleton _ _⟩
    rw [anyPart_singleton]
    exact ⟨fun hx => ⟨hx, fun hq => Progression.not_mem_of_count hzero ((hmem x).2 ⟨hx, hq⟩)⟩, And.left⟩
  have hfirst : common.firstOf = some common.first := by rw [Progression.firstOf, if_neg hzero]
  have hlastOf := last_eq_pure hlast
  rw [hfirst] at h
  cases lastOption with
  | none =>
    rw [Progression.lastOf, if_neg hzero] at hlastOf
    cases hlastOf
  | some commonLast =>
    simp only at h
    obtain ⟨before, hbefore, h⟩ := bind_eq_pure h
    obtain ⟨after, hafter, h⟩ := bind_eq_pure h
    split at h
    · exact nomatch Option.some.inj h
    obtain ⟨residues, hresidues, h⟩ := bind_eq_pure h
    obtain rfl := pure_injective h
    have hpos := p.step_pos
    have hends := Progression.first_mem hzero
    have hlastMem : commonLast ∈ common := by
      obtain ⟨-, heq⟩ := Progression.lastOf_eq_some hlastOf.symm
      exact ⟨common.count - 1, by omega, by rw [heq, Nat.cast_sub (by omega)]; rfl⟩
    have hfirstP : common.first ∈ p := ((hmem _).1 hends).1
    have hlastP : commonLast ∈ p := ((hmem _).1 hlastMem).1
    have hle : common.first ≤ commonLast := Progression.first_le hlastMem
    obtain ⟨hb, hbl⟩ := partBefore_spec hfirstP hbefore
    obtain ⟨ha, hal⟩ := partAfter_spec hlastP hafter
    obtain ⟨ratio, hratio⟩ := hdvd hzero
    have hratio' : common.step = ratio * p.step := by rw [hratio, mul_comm]
    have hquot : common.step.tdiv p.step = ratio := by rw [hratio, Int.mul_tdiv_cancel_left _ hpos.ne']
    have hratioPos : 0 < ratio := by
      have := common.step_pos
      rw [hratio'] at this
      exact (pos_iff_pos_of_mul_pos this).2 hpos
    rw [hquot] at hresidues
    have hrange : ∀ r ∈ List.range' 1 (ratio.toNat - 1), (r : Int) < ratio ∧ 1 ≤ r := by
      intro r hr
      rw [List.mem_range'_1] at hr
      omega
    obtain ⟨hr, hrs⟩ := residueParts_spec hratio' (List.pairwise_lt_range' 1) (fun r h => (hrange r h).1) hresidues
    have hinside : ∀ x, AnyPart residues x ↔ (x ∈ p ∧ x ∉ q) ∧ common.first ≤ x ∧ x ≤ commonLast := fun x =>
      (hr x).trans (exists_inClass_iff hmem hlastOf.symm hfirstP hlastP hratio' hratioPos)
    have hsplit : ∀ x, x ∈ p ∧ x ∉ q ↔ (x ∈ p ∧ x < common.first) ∨ (x ∈ p ∧ commonLast < x) ∨
        ((x ∈ p ∧ x ∉ q) ∧ common.first ≤ x ∧ x ≤ commonLast) := by
      intro x
      have hout : x ∈ p → x ∈ q → common.first ≤ x ∧ x ≤ commonLast := fun hxp hxq => by
        have := (mem_iff_last hlastOf.symm).1 ((hmem x).2 ⟨hxp, hxq⟩)
        exact ⟨this.1, this.2.1⟩
      constructor
      · rintro ⟨hxp, hxq⟩
        rcases lt_or_ge x common.first with hlt | hge
        · exact .inl ⟨hxp, hlt⟩
        · rcases lt_or_ge commonLast x with hlt | hle
          · exact .inr (.inl ⟨hxp, hlt⟩)
          · exact .inr (.inr ⟨⟨hxp, hxq⟩, hge, hle⟩)
      · rintro (⟨hxp, hlt⟩ | ⟨hxp, hlt⟩ | ⟨hx, -⟩)
        · exact ⟨hxp, fun hxq => by have := hout hxp hxq; omega⟩
        · exact ⟨hxp, fun hxq => by have := hout hxp hxq; omega⟩
        · exact hx
    have hsingle : ∀ parts : List Progression, parts.length ≤ 1 → Separate parts := fun parts hlen => by
      match parts, hlen with
      | [], _ => exact .nil
      | [part], _ => exact List.pairwise_singleton _ _
    refine ⟨fun x => ?_, ?_⟩
    · rw [hsplit x, anyPart_append, anyPart_append, hb, ha, hinside]
      exact or_assoc
    · refine List.pairwise_append.2 ⟨List.pairwise_append.2 ⟨hsingle _ hbl, hsingle _ hal, ?_⟩, hrs, ?_⟩
      · intro part hpart part' hpart' x hx hx'
        have := (hb x).1 ⟨part, hpart, hx⟩
        have := (ha x).1 ⟨part', hpart', hx'⟩
        omega
      · intro part hpart part' hpart' x hx hx'
        have hin := ((hinside x).1 ⟨part', hpart', hx'⟩).2
        rcases List.mem_append.1 hpart with hpart | hpart
        · have := ((hb x).1 ⟨part, hpart, hx⟩).2
          omega
        · have := ((ha x).1 ⟨part, hpart, hx⟩).2
          omega

end Difference

end Checked

end Rumoca.Core
