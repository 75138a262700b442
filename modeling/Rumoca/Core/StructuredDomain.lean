import Rumoca.Machine
import Rumoca.Lib.Loop
import Rumoca.Lib.RowMajor
/-!
# Structured index domains

A domain is a list of binders, each the values `lower`, `lower + step`, … up
to `upper`, numbered in row-major order. `validate` multiplies the value counts
from the first binder on, the strides multiply them from the last one back. A
domain with no values is accepted by the first and may be refused by the
second: `indexesExactly_iff` says exactly when `index_tuple_iter`,
`index_tuple_at` and `ordinal_of` agree with the values of the domain.
-/

namespace Rumoca.Core

open Rumoca.Lib

structure StructuredIndexBinder where
  id : Nat
  displayName : String
  lower : Int
  upper : Int
  step : Int
  lower_i64 : IsI64 lower
  upper_i64 : IsI64 upper
  step_i64 : IsI64 step

structure StructuredIndexDomain where
  binders : List StructuredIndexBinder

inductive StructuredIndexDomainError where
  | ZeroStep (binderId : Nat) (displayName : String)
  | ScalarCountOverflow
  | BinderValueOverflow (binderId : Nat) (displayName : String)
deriving DecidableEq, Repr

/-- A panic (`none`), an error, or a result. -/
abbrev DomainResult := ExceptT StructuredIndexDomainError Option

/-- A checked operation on `usize`. -/
def orCountOverflow (n : Option Nat) : DomainResult Nat :=
  match n with
  | some n => pure n
  | none => throw .ScalarCountOverflow

namespace StructuredIndexBinder

def positiveValueCount (binder : StructuredIndexBinder) : Nat :=
  if binder.upper < binder.lower then 0 else ((binder.upper - binder.lower) / binder.step).toNat + 1

def negativeValueCount (binder : StructuredIndexBinder) : Nat :=
  if binder.lower < binder.upper then 0 else ((binder.lower - binder.upper) / -binder.step).toNat + 1

/-- The count before it is narrowed to a `usize`. -/
def wideCount (binder : StructuredIndexBinder) : Nat :=
  if 0 < binder.step then binder.positiveValueCount else binder.negativeValueCount

def valueCount (binder : StructuredIndexBinder) : DomainResult Nat :=
  if binder.step = 0 then throw (.ZeroStep binder.id binder.displayName)
  else orCountOverflow (checkedUsize binder.wideCount)

def valueAt (binder : StructuredIndexBinder) (position : Nat) : DomainResult Int :=
  match checkedI64 (binder.lower + binder.step * position) with
  | some value => pure value
  | none => throw (.BinderValueOverflow binder.id binder.displayName)

def positionOf (binder : StructuredIndexBinder) (value : Int) : DomainResult (Option Nat) := do
  let count ← binder.valueCount
  if count = 0 then return none
  let distance := value - binder.lower
  if distance.tmod binder.step ≠ 0 then return none
  let position := distance.tdiv binder.step
  if position < 0 then return none
  let position ← orCountOverflow (checkedUsize position.toNat)
  return if position < count then some position else none

end StructuredIndexBinder

def ordinalStridesForExtents : List Nat → DomainResult (List Nat)
  | [] => pure []
  | [_] => pure [1]
  | _ :: extent :: rest => do
    let strides ← ordinalStridesForExtents (extent :: rest)
    let stride ← orCountOverflow (checkedUsize (strides.headD 1 * extent))
    pure (stride :: strides)

/-- The coordinates of `ordinal`; `none` at a division by zero. -/
def coordinates (ordinal : Nat) : List (StructuredIndexBinder × Nat × Nat) → DomainResult (List Int)
  | [] => pure []
  | (binder, extent, stride) :: rest => do
    if stride = 0 ∨ extent = 0 then ExceptT.mk none
    let value ← binder.valueAt ((ordinal / stride) % extent)
    let values ← coordinates ordinal rest
    pure (value :: values)

/-- The loop of `ordinal_of`. -/
def ordinalFrom : List (StructuredIndexBinder × Int × Nat) → (ordinal : Nat) → DomainResult (Option Nat)
  | [], ordinal => pure (some ordinal)
  | (binder, value, stride) :: rest, ordinal => do
    match ← binder.positionOf value with
    | none => pure none
    | some position =>
      let offset ← orCountOverflow (checkedUsize (position * stride))
      let ordinal ← orCountOverflow (checkedUsize (ordinal + offset))
      ordinalFrom rest ordinal

namespace StructuredIndexDomain

def validate (domain : StructuredIndexDomain) : DomainResult Nat :=
  domain.binders.foldlM (fun count binder => do
    let values ← binder.valueCount
    orCountOverflow (checkedUsize (count * values))) 1

def extents (domain : StructuredIndexDomain) : DomainResult (List Nat) := do
  let _ ← domain.validate
  domain.binders.mapM StructuredIndexBinder.valueCount

def ordinalStrides (domain : StructuredIndexDomain) : DomainResult (List Nat) := do
  ordinalStridesForExtents (← domain.extents)

def indexTupleAtValidated (domain : StructuredIndexDomain) (ordinal : Nat) (extents strides : List Nat) :
    DomainResult (List Int) :=
  coordinates ordinal (domain.binders.zip (extents.zip strides))

def indexTupleAt (domain : StructuredIndexDomain) (ordinal : Nat) : DomainResult (Option (List Int)) := do
  let scalarCount ← domain.validate
  if scalarCount ≤ ordinal then return none
  let extents ← domain.extents
  let strides ← ordinalStridesForExtents extents
  return some (← domain.indexTupleAtValidated ordinal extents strides)

def ordinalOf (domain : StructuredIndexDomain) (indexTuple : List Int) : DomainResult (Option Nat) := do
  let _ ← domain.validate
  if indexTuple.length ≠ domain.binders.length then return none
  let strides ← domain.ordinalStrides
  ordinalFrom (domain.binders.zip (indexTuple.zip strides)) 0

/-- The items of the iterator in order; `none` where the iterator panics. -/
def indexTupleIter (domain : StructuredIndexDomain) : DomainResult (List (Option (List Int))) := do
  let scalarCount ← domain.validate
  let extents ← domain.extents
  let strides ← ordinalStridesForExtents extents
  return (List.range scalarCount).map fun ordinal =>
    match (domain.indexTupleAtValidated ordinal extents strides).run with
    | some (.ok tuple) => some tuple
    | _ => none

end StructuredIndexDomain

/-! ## One binder -/

@[simp] theorem orCountOverflow_of_lt {n : Nat} (h : n < usizeLimit) : orCountOverflow (checkedUsize n) = pure n := by
  rw [checkedUsize, if_pos h]
  rfl

theorem orCountOverflow_of_le {n : Nat} (h : usizeLimit ≤ n) :
    orCountOverflow (checkedUsize n) = throw .ScalarCountOverflow := by
  rw [checkedUsize, if_neg (by omega)]
  rfl

theorem orCountOverflow_eq_pure {n m : Nat} (h : orCountOverflow (checkedUsize n) = pure m) : n = m ∧ n < usizeLimit := by
  by_cases hn : n < usizeLimit
  · rw [orCountOverflow_of_lt hn] at h
    exact ⟨Except.ok.inj (Option.some.inj h), hn⟩
  · rw [orCountOverflow_of_le (by omega)] at h
    exact nomatch Option.some.inj h

namespace StructuredIndexBinder

variable {binder : StructuredIndexBinder}

def point (binder : StructuredIndexBinder) (position : Nat) : Int := binder.lower + binder.step * position

theorem valueCount_eq_pure {count : Nat} (h : binder.valueCount = pure count) :
    binder.step ≠ 0 ∧ count = binder.wideCount ∧ count < usizeLimit := by
  unfold valueCount at h
  split at h
  · exact nomatch Option.some.inj h
  · next hstep =>
    obtain ⟨rfl, hlt⟩ := orCountOverflow_eq_pure h
    exact ⟨hstep, rfl, hlt⟩

theorem lt_wideCount_of_pos (hstep : 0 < binder.step) {k : Nat} : k < binder.wideCount ↔ binder.point k ≤ binder.upper := by
  unfold wideCount point
  rw [if_pos hstep, positiveValueCount]
  have hk : 0 ≤ binder.step * k := mul_nonneg hstep.le (Int.natCast_nonneg k)
  split
  · omega
  · next hle =>
    have hnonneg : 0 ≤ (binder.upper - binder.lower) / binder.step := Int.ediv_nonneg (by omega) hstep.le
    have hdiv := Int.le_ediv_iff_mul_le (c := binder.step) (a := (k : Int)) (b := binder.upper - binder.lower) hstep
    rw [mul_comm] at hdiv
    omega

theorem lt_wideCount_of_neg (hstep : binder.step < 0) {k : Nat} : k < binder.wideCount ↔ binder.upper ≤ binder.point k := by
  unfold wideCount point
  rw [if_neg (by omega), negativeValueCount]
  have hk : binder.step * k ≤ 0 := mul_nonpos_of_nonpos_of_nonneg hstep.le (Int.natCast_nonneg k)
  split
  · omega
  · next hle =>
    have hpos : 0 < -binder.step := by omega
    have hnonneg : 0 ≤ (binder.lower - binder.upper) / -binder.step := Int.ediv_nonneg (by omega) hpos.le
    have hdiv := Int.le_ediv_iff_mul_le (c := -binder.step) (a := (k : Int)) (b := binder.lower - binder.upper) hpos
    rw [mul_comm, neg_mul] at hdiv
    omega

theorem point_i64 (hstep : binder.step ≠ 0) {k : Nat} (hk : k < binder.wideCount) : IsI64 (binder.point k) := by
  have hlower := binder.lower_i64
  have hupper := binder.upper_i64
  unfold IsI64 at *
  rcases lt_or_gt_of_ne hstep with hneg | hpos
  · have := lt_wideCount_of_neg hneg |>.1 hk
    have : binder.point k ≤ binder.lower := by
      have := mul_nonpos_of_nonpos_of_nonneg hneg.le (Int.natCast_nonneg k)
      unfold point
      omega
    omega
  · have := lt_wideCount_of_pos hpos |>.1 hk
    have : binder.lower ≤ binder.point k := by
      have := mul_nonneg hpos.le (Int.natCast_nonneg k)
      unfold point
      omega
    omega

theorem valueAt_spec (hstep : binder.step ≠ 0) {k : Nat} (hk : k < binder.wideCount) :
    binder.valueAt k = pure (binder.point k) := by
  have hi := point_i64 hstep hk
  unfold valueAt
  rw [show checkedI64 (binder.lower + binder.step * k) = some (binder.point k) from
    checkedI64_eq_some.2 ⟨rfl, hi.1, hi.2⟩]

theorem point_injective (hstep : binder.step ≠ 0) : Function.Injective binder.point := by
  intro k k' h
  have := mul_left_cancel₀ hstep (add_left_cancel h)
  exact_mod_cast this

theorem positionOf_point {count : Nat} (h : binder.valueCount = pure count) {k : Nat} (hk : k < count) :
    binder.positionOf (binder.point k) = pure (some k) := by
  obtain ⟨hstep, rfl, hlt⟩ := valueCount_eq_pure h
  have hdistance : binder.point k - binder.lower = binder.step * k := by
    unfold point
    ring
  unfold positionOf
  simp only [h, pure_bind, hdistance, Int.mul_tmod_right, Int.mul_tdiv_cancel_left _ hstep, Int.toNat_natCast,
    orCountOverflow_of_lt (show k < usizeLimit by omega)]
  rw [if_neg (by omega), if_neg (by simp), if_neg (by omega), if_pos hk]

theorem positionOf_other {count : Nat} (h : binder.valueCount = pure count) {value : Int} (hvalue : IsI64 value)
    (hother : ∀ k < count, value ≠ binder.point k) : binder.positionOf value = pure none := by
  obtain ⟨hstep, rfl, hlt⟩ := valueCount_eq_pure h
  unfold positionOf
  simp only [h, pure_bind]
  by_cases hzero : binder.wideCount = 0
  · rw [if_pos hzero]
  rw [if_neg hzero]
  by_cases hmod : (value - binder.lower).tmod binder.step = 0
  · obtain ⟨q, hq⟩ := Int.dvd_of_tmod_eq_zero hmod
    have hdiv : (value - binder.lower).tdiv binder.step = q := by rw [hq, Int.mul_tdiv_cancel_left _ hstep]
    rw [if_neg (not_not.2 hmod), hdiv]
    by_cases hneg : q < 0
    · rw [if_pos hneg]
    have hnat : (q.toNat : Int) = q := Int.toNat_of_nonneg (by omega)
    have hfits : q.toNat < usizeLimit := by
      have hlower := binder.lower_i64
      have habs : |q| ≤ |value - binder.lower| := by
        rw [hq, abs_mul]
        have : 1 ≤ |binder.step| := Int.one_le_abs hstep
        nlinarith [abs_nonneg q]
      unfold IsI64 i64Limit at hvalue hlower
      unfold usizeLimit
      rw [abs_of_nonneg (by omega)] at habs
      have : |value - binder.lower| < 2 ^ 64 := abs_lt.2 ⟨by omega, by omega⟩
      omega
    have hlarge : ¬ q.toNat < binder.wideCount := fun hlt => hother q.toNat hlt (by
      unfold point
      rw [hnat]
      omega)
    rw [if_neg hneg, orCountOverflow_of_lt hfits, pure_bind, if_neg hlarge]
  · rw [if_pos hmod]

end StructuredIndexBinder

/-! ## Counts and strides -/

open RowMajor

namespace StructuredIndexBinder

def values (binder : StructuredIndexBinder) : List Int := (List.range binder.wideCount).map binder.point

theorem nodup_values {binder : StructuredIndexBinder} (hstep : binder.step ≠ 0) : binder.values.Nodup :=
  List.nodup_range.map (point_injective hstep)

end StructuredIndexBinder

namespace StructuredIndexDomain

variable {domain : StructuredIndexDomain}

def counts (domain : StructuredIndexDomain) : List Nat := domain.binders.map StructuredIndexBinder.wideCount

def tuples (domain : StructuredIndexDomain) : List (List Int) :=
  choices (domain.binders.map StructuredIndexBinder.values)

/-- The products the strides are made of fit a `usize`. -/
def StridesFit (domain : StructuredIndexDomain) : Prop := ∀ stride ∈ suffixProducts domain.counts, stride < usizeLimit

theorem validate_fold {binders : List StructuredIndexBinder} {acc n : Nat} (hacc : acc < usizeLimit)
    (h : binders.foldlM (fun count binder => do
      let values ← binder.valueCount
      orCountOverflow (checkedUsize (count * values))) acc = pure n) :
    (∀ binder ∈ binders, binder.valueCount = pure binder.wideCount) ∧
      n = acc * (binders.map StructuredIndexBinder.wideCount).prod ∧ n < usizeLimit := by
  induction binders generalizing acc with
  | nil =>
    obtain rfl : acc = n := Except.ok.inj (Option.some.inj h)
    exact ⟨by simp, by simp, hacc⟩
  | cons binder rest ih =>
    rw [List.foldlM_cons] at h
    obtain ⟨next, hnext, h⟩ := bind_eq_pure h
    obtain ⟨count, hcount, hproduct⟩ := bind_eq_pure hnext
    obtain ⟨rfl, hfits⟩ := orCountOverflow_eq_pure hproduct
    obtain ⟨hstep, rfl, hlt⟩ := StructuredIndexBinder.valueCount_eq_pure hcount
    obtain ⟨hrest, hn, hlt'⟩ := ih hfits h
    refine ⟨fun b hb => ?_, ?_, hlt'⟩
    · rcases List.mem_cons.1 hb with rfl | hb
      · exact hcount
      · exact hrest b hb
    · rw [hn, List.map_cons, List.prod_cons, Nat.mul_assoc]

theorem validate_eq_pure {n : Nat} (h : domain.validate = pure n) :
    (∀ binder ∈ domain.binders, binder.valueCount = pure binder.wideCount) ∧ n = domain.counts.prod ∧ n < usizeLimit := by
  obtain ⟨hcounts, hn, hlt⟩ := validate_fold (by decide) h
  exact ⟨hcounts, by rw [hn, Nat.one_mul]; rfl, hlt⟩

theorem extents_eq {n : Nat} (h : domain.validate = pure n) : domain.extents = pure domain.counts := by
  have hmap : ∀ binders : List StructuredIndexBinder, (∀ binder ∈ binders, binder.valueCount = pure binder.wideCount) →
      binders.mapM StructuredIndexBinder.valueCount = pure (binders.map StructuredIndexBinder.wideCount) := by
    intro binders hb
    induction binders with
    | nil => rfl
    | cons binder rest ih =>
      rw [List.mapM_cons, hb binder (by simp), ih fun b hb' => hb b (by simp [hb'])]
      rfl
  rw [extents, h, pure_bind, hmap _ (validate_eq_pure h).1]
  rfl

end StructuredIndexDomain

theorem suffixProducts_cons_head (extent : Nat) (rest : List Nat) :
    (suffixProducts (extent :: rest)).headD 1 = rest.prod := rfl

theorem ordinalStridesForExtents_eq {extents : List Nat} (h : ∀ stride ∈ suffixProducts extents, stride < usizeLimit) :
    ordinalStridesForExtents extents = pure (suffixProducts extents) := by
  induction extents with
  | nil => rfl
  | cons first extents ih =>
    cases extents with
    | nil => rfl
    | cons extent rest =>
      have hfirst : rest.prod * extent < usizeLimit := by
        rw [Nat.mul_comm, ← List.prod_cons]
        exact h _ (by simp [suffixProducts])
      rw [ordinalStridesForExtents, ih fun s hs => h s (by simp only [suffixProducts, List.mem_cons] at hs ⊢; tauto),
        pure_bind, suffixProducts_cons_head, orCountOverflow_of_lt hfirst, pure_bind, Nat.mul_comm, ← List.prod_cons]
      rfl

theorem fits_of_ordinalStridesForExtents {extents strides : List Nat} (h : ordinalStridesForExtents extents = pure strides) :
    strides = suffixProducts extents ∧ ∀ stride ∈ suffixProducts extents, stride < usizeLimit := by
  induction extents generalizing strides with
  | nil =>
    obtain rfl : [] = strides := Except.ok.inj (Option.some.inj h)
    exact ⟨rfl, by simp [suffixProducts]⟩
  | cons first extents ih =>
    cases extents with
    | nil =>
      obtain rfl : [1] = strides := Except.ok.inj (Option.some.inj h)
      exact ⟨rfl, by simp [suffixProducts, usizeLimit]⟩
    | cons extent rest =>
      rw [ordinalStridesForExtents] at h
      obtain ⟨later, hlater, h⟩ := bind_eq_pure h
      obtain ⟨rfl, hfits⟩ := ih hlater
      obtain ⟨stride, hstride, h⟩ := bind_eq_pure h
      obtain ⟨rfl, hlt⟩ := orCountOverflow_eq_pure hstride
      rw [suffixProducts_cons_head, Nat.mul_comm, ← List.prod_cons] at h hlt
      obtain rfl := Except.ok.inj (Option.some.inj h)
      refine ⟨rfl, fun s hs => ?_⟩
      rw [suffixProducts, List.mem_cons] at hs
      rcases hs with rfl | hs
      · exact hlt
      · exact hfits s hs

/-! ## Tuples and ordinals -/

theorem coordinates_eq {binders : List StructuredIndexBinder} (hstep : ∀ binder ∈ binders, binder.step ≠ 0)
    (hpos : 0 < (binders.map StructuredIndexBinder.wideCount).prod) (ordinal : Nat) :
    coordinates ordinal (binders.zip ((binders.map StructuredIndexBinder.wideCount).zip
      (suffixProducts (binders.map StructuredIndexBinder.wideCount)))) =
      pure (List.zipWith StructuredIndexBinder.point binders
        (positionsOf (binders.map StructuredIndexBinder.wideCount) ordinal)) := by
  induction binders with
  | nil => rfl
  | cons binder rest ih =>
    rw [List.map_cons, List.prod_cons] at hpos
    have hrest : 0 < (rest.map StructuredIndexBinder.wideCount).prod := Nat.pos_of_mul_pos_left hpos
    have hcount : 0 < binder.wideCount := Nat.pos_of_mul_pos_right hpos
    have hguard : ¬ ((rest.map StructuredIndexBinder.wideCount).prod = 0 ∨ binder.wideCount = 0) := by omega
    simp only [List.map_cons, suffixProducts, List.zip_cons_cons, coordinates, if_neg hguard, pure_bind,
      StructuredIndexBinder.valueAt_spec (hstep binder (by simp)) (Nat.mod_lt _ hcount),
      ih (fun b hb => hstep b (by simp [hb])) hrest, positionsOf, List.zipWith_cons_cons]

/-- From `ordinal` on, a tuple of the domain adds its row-major ordinal; another tuple has none. -/
theorem ordinalFrom_spec {binders : List StructuredIndexBinder}
    (hcounts : ∀ binder ∈ binders, binder.valueCount = pure binder.wideCount) {ordinal : Nat} (hlt : ordinal < usizeLimit)
    (hbound : ordinal + (binders.map StructuredIndexBinder.wideCount).prod ≤ usizeLimit) {tuple : List Int}
    (hlen : tuple.length = binders.length) (htuple : ∀ value ∈ tuple, IsI64 value) :
    (∀ positions, List.Forall₂ (· < ·) positions (binders.map StructuredIndexBinder.wideCount) →
      tuple = List.zipWith StructuredIndexBinder.point binders positions →
      ordinalFrom (binders.zip (tuple.zip (suffixProducts (binders.map StructuredIndexBinder.wideCount)))) ordinal =
        pure (some (ordinal + RowMajor.ordinalOf (binders.map StructuredIndexBinder.wideCount) positions))) ∧
    (tuple ∉ choices (binders.map StructuredIndexBinder.values) →
      ordinalFrom (binders.zip (tuple.zip (suffixProducts (binders.map StructuredIndexBinder.wideCount)))) ordinal =
        pure none) := by
  induction binders generalizing ordinal tuple with
  | nil =>
    obtain rfl := List.eq_nil_of_length_eq_zero hlen
    refine ⟨fun positions hp _ => ?_, fun h => absurd (by simp [choices]) h⟩
    cases hp
    rfl
  | cons binder rest ih =>
    cases tuple with
    | nil => simp at hlen
    | cons value tuple =>
      have hcount := hcounts binder (by simp)
      have hvalue : IsI64 value := htuple value (by simp)
      set P := (rest.map StructuredIndexBinder.wideCount).prod with hP
      rw [List.map_cons, List.prod_cons, ← hP] at hbound
      -- one position found leaves room for the values of the later binders
      have hroom : ∀ k < binder.wideCount, k * P < usizeLimit ∧ ordinal + k * P < usizeLimit ∧
          ordinal + k * P + P ≤ usizeLimit := by
        intro k hk
        have hstep : (k + 1) * P ≤ binder.wideCount * P := Nat.mul_le_mul_right P hk
        rw [Nat.succ_mul] at hstep
        rcases Nat.eq_zero_or_pos P with hzero | hpos
        · rw [hzero]
          omega
        · omega
      have hfound : ∀ k < binder.wideCount, ordinalFrom ((binder :: rest).zip ((binder.point k :: tuple).zip
          (suffixProducts ((binder :: rest).map StructuredIndexBinder.wideCount)))) ordinal =
            ordinalFrom (rest.zip (tuple.zip (suffixProducts (rest.map StructuredIndexBinder.wideCount))))
              (ordinal + k * P) := by
        intro k hk
        simp only [List.map_cons, suffixProducts, List.zip_cons_cons, ordinalFrom,
          StructuredIndexBinder.positionOf_point hcount hk, pure_bind, orCountOverflow_of_lt (hroom k hk).1,
          orCountOverflow_of_lt (hroom k hk).2.1, ← hP]
      have hih : ∀ k < binder.wideCount, _ := fun k hk => ih (fun b hb => hcounts b (by simp [hb])) (hroom k hk).2.1
        (hroom k hk).2.2 (by simpa using hlen) (fun v hv => htuple v (by simp [hv]))
      refine ⟨fun positions hp heq => ?_, fun hnot => ?_⟩
      · cases hp with
        | @cons k _ positions _ hk hp =>
          obtain ⟨rfl, hrest⟩ := List.cons.inj heq
          rw [hfound k hk, (hih k hk).1 positions hp hrest, List.map_cons, RowMajor.ordinalOf, Nat.add_assoc]
      · by_cases hv : ∃ k < binder.wideCount, value = binder.point k
        · obtain ⟨k, hk, rfl⟩ := hv
          rw [hfound k hk]
          refine (hih k hk).2 fun hmem => hnot ?_
          rw [List.map_cons, mem_choices]
          exact .cons (List.mem_map_of_mem (List.mem_range.2 hk)) (mem_choices.1 hmem)
        · push Not at hv
          simp only [List.map_cons, suffixProducts, List.zip_cons_cons, ordinalFrom,
            StructuredIndexBinder.positionOf_other hcount hvalue hv, pure_bind]

/-! ## The domain's own numbering -/

namespace StructuredIndexDomain

variable {domain : StructuredIndexDomain} {n : Nat}

/-- The iterator yields the tuples of the domain in row-major order, each once,
and `ordinal_of` numbers them and no other tuple. -/
structure IndexesExactly (domain : StructuredIndexDomain) (n : Nat) : Prop where
  iter : domain.indexTupleIter = pure (domain.tuples.map some)
  length : domain.tuples.length = n
  nodup : domain.tuples.Nodup
  inverse : ∀ k < n, ∃ tuple, domain.indexTupleAt k = pure (some tuple) ∧ domain.ordinalOf tuple = pure (some k)
  member : ∀ tuple ∈ domain.tuples, ∃ k < n, domain.ordinalOf tuple = pure (some k)
  other : ∀ tuple, (∀ value ∈ tuple, IsI64 value) → tuple ∉ domain.tuples → domain.ordinalOf tuple = pure none

theorem tuples_eq (domain : StructuredIndexDomain) : domain.tuples =
    (List.range domain.counts.prod).map fun k =>
      List.zipWith StructuredIndexBinder.point domain.binders (positionsOf domain.counts k) := by
  have hvalues : domain.binders.map StructuredIndexBinder.values =
      List.zipWith (fun binder positions => positions.map (StructuredIndexBinder.point binder)) domain.binders
        (domain.counts.map List.range) := by
    rw [counts, List.map_map, List.zipWith_map_right, List.zipWith_self]
    rfl
  rw [tuples, hvalues, ← choices_zipWith (by simp [counts]), ← map_positionsOf_range, List.map_map]
  rfl

theorem indexTupleAtValidated_eq (h : domain.validate = pure n) (hn : 0 < n) (k : Nat) :
    domain.indexTupleAtValidated k domain.counts (suffixProducts domain.counts) =
      pure (List.zipWith StructuredIndexBinder.point domain.binders (positionsOf domain.counts k)) := by
  obtain ⟨hcounts, rfl, -⟩ := validate_eq_pure h
  exact coordinates_eq (fun binder hb => (StructuredIndexBinder.valueCount_eq_pure (hcounts binder hb)).1) hn k

theorem ordinalOf_eq (h : domain.validate = pure n) (hfit : domain.StridesFit) {tuple : List Int}
    (hlen : tuple.length = domain.binders.length) :
    domain.ordinalOf tuple = ordinalFrom (domain.binders.zip (tuple.zip (suffixProducts domain.counts))) 0 := by
  simp only [ordinalOf, h, pure_bind, hlen, ne_eq, not_true_eq_false, if_false, ordinalStrides, extents_eq h,
    ordinalStridesForExtents_eq hfit]

theorem ordinalOf_tuple (h : domain.validate = pure n) (hfit : domain.StridesFit) {k : Nat} (hk : k < n) :
    domain.ordinalOf (List.zipWith StructuredIndexBinder.point domain.binders (positionsOf domain.counts k)) =
      pure (some k) := by
  obtain ⟨hcounts, rfl, hlt⟩ := validate_eq_pure h
  have hpos : ∀ extent ∈ domain.counts, 0 < extent := fun extent he =>
    Nat.pos_of_ne_zero fun hzero => by
      rw [List.prod_eq_zero (hzero ▸ he)] at hk
      cases hk
  have hpositions : List.Forall₂ (· < ·) (positionsOf domain.counts k) domain.counts := positionsOf_lt hpos k
  have hlen : (List.zipWith StructuredIndexBinder.point domain.binders (positionsOf domain.counts k)).length =
      domain.binders.length := by
    rw [List.length_zipWith, hpositions.length_eq, counts, List.length_map, Nat.min_self]
  have htuple : ∀ value ∈ List.zipWith StructuredIndexBinder.point domain.binders (positionsOf domain.counts k),
      IsI64 value := by
    intro value hv
    obtain ⟨i, hi, rfl⟩ := List.getElem_of_mem hv
    rw [List.getElem_zipWith]
    simp only [List.length_zipWith, lt_min_iff] at hi
    have hget := List.Forall₂.get hpositions hi.2 (by simpa [counts] using hi.1)
    refine StructuredIndexBinder.point_i64
      (StructuredIndexBinder.valueCount_eq_pure (hcounts _ (List.getElem_mem hi.1))).1 ?_
    simpa [counts] using hget
  rw [ordinalOf_eq h hfit hlen]
  have hfrom := (ordinalFrom_spec hcounts (show 0 < usizeLimit by decide)
    (by rw [Nat.zero_add]; exact hlt.le) hlen htuple).1 _ hpositions rfl
  rw [Nat.zero_add] at hfrom
  refine hfrom.trans ?_
  have hordinal := ordinalOf_positionsOf domain.counts k
  rw [Nat.mod_eq_of_lt hk] at hordinal
  rw [counts] at hordinal ⊢
  rw [hordinal]

/-- An accepted domain is numbered by its values exactly when the strides fit. -/
theorem indexesExactly_iff (domain : StructuredIndexDomain) (n : Nat) (h : domain.validate = pure n) :
    IndexesExactly domain n ↔ domain.StridesFit := by
  obtain ⟨hcounts, hn, hlt⟩ := validate_eq_pure h
  constructor
  · intro hexact
    have hiter := hexact.iter
    simp only [indexTupleIter, h, pure_bind, extents_eq h] at hiter
    obtain ⟨strides, hstrides, -⟩ := bind_eq_pure hiter
    exact (fits_of_ordinalStridesForExtents hstrides).2
  · intro hfit
    have hmem : ∀ tuple ∈ domain.tuples, ∃ k < n,
        tuple = List.zipWith StructuredIndexBinder.point domain.binders (positionsOf domain.counts k) := by
      intro tuple ht
      rw [tuples_eq, ← hn] at ht
      obtain ⟨k, hk, rfl⟩ := List.mem_map.1 ht
      exact ⟨k, List.mem_range.1 hk, rfl⟩
    refine ⟨?_, by rw [tuples_eq, List.length_map, List.length_range, hn], ?_, fun k hk => ?_, fun tuple ht => ?_,
      fun tuple hi hnot => ?_⟩
    · simp only [indexTupleIter, h, pure_bind, extents_eq h, ordinalStridesForExtents_eq hfit]
      rw [tuples_eq, ← hn, List.map_map]
      congr 1
      refine List.map_congr_left fun k hk => ?_
      rw [indexTupleAtValidated_eq h (Nat.zero_lt_of_lt (List.mem_range.1 hk)) k]
      rfl
    · refine nodup_choices fun values hv => ?_
      obtain ⟨binder, hb, rfl⟩ := List.mem_map.1 hv
      exact StructuredIndexBinder.nodup_values (StructuredIndexBinder.valueCount_eq_pure (hcounts binder hb)).1
    · refine ⟨_, ?_, ordinalOf_tuple h hfit hk⟩
      simp only [indexTupleAt, h, pure_bind, if_neg (Nat.not_le.2 hk), extents_eq h, ordinalStridesForExtents_eq hfit,
        indexTupleAtValidated_eq h (Nat.zero_lt_of_lt hk) k]
    · obtain ⟨k, hk, rfl⟩ := hmem tuple ht
      exact ⟨k, hk, ordinalOf_tuple h hfit hk⟩
    · by_cases hlen : tuple.length = domain.binders.length
      · rw [ordinalOf_eq h hfit hlen]
        have hbound : 0 + domain.counts.prod ≤ usizeLimit := by
          rw [Nat.zero_add]
          exact (hn ▸ hlt).le
        exact (ordinalFrom_spec hcounts (show 0 < usizeLimit by decide) hbound hlen hi).2 hnot
      · simp only [ordinalOf, h, pure_bind, ne_eq, hlen, not_false_eq_true, if_true]

def descending : StructuredIndexDomain :=
  ⟨[⟨0, "i", 1, 2, 1, by decide, by decide, by decide⟩, ⟨1, "j", 5, 1, -2, by decide, by decide, by decide⟩]⟩

theorem indexesExactly_iff_descending : IndexesExactly descending 6 ↔ descending.StridesFit :=
  indexesExactly_iff descending 6 rfl

/-- No values along the first binder, and `2 ^ 64` choices along the others. -/
def emptyFirst : StructuredIndexDomain :=
  ⟨[⟨0, "i", 1, 0, 1, by decide, by decide, by decide⟩, ⟨1, "j", 1, 2 ^ 32, 1, by decide, by decide, by decide⟩,
    ⟨2, "k", 1, 2 ^ 32, 1, by decide, by decide, by decide⟩]⟩

/-- An accepted domain without values, which the iterator refuses. -/
theorem not_indexesExactly_emptyFirst : ¬ ∀ domain n, validate domain = pure n → IndexesExactly domain n := by
  intro h
  have hexact := h emptyFirst 0 rfl
  have hiter : emptyFirst.indexTupleIter = throw .ScalarCountOverflow := by rfl
  exact nomatch Option.some.inj (hiter.symm.trans hexact.iter)

end StructuredIndexDomain

end Rumoca.Core
