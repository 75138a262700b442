import Mathlib.Data.Int.Bitwise
import Rumoca.Machine
/-!
# Integer intervals

`SolveIntegerInterval` bounds the Integer values of a typed program inside an
Integer domain. An operation has an interval when no member, or no pair of
members, makes the checked operation fault; the interval is then the hull of
the results.
-/

namespace Rumoca.Solve

inductive SolveUnaryOperator where
  | negate | not | abs | sign | sqrt | floor | ceiling | truncate | sin | cos | tan | asin | acos | atan | sinh | cosh
  | tanh | exp | log | log10
deriving DecidableEq, Repr

inductive SolveBinaryOperator where
  | add | subtract | multiply | divide | integerQuotient | integerModulo | integerRemainder | power | and | or | atan2
  | min | max
deriving DecidableEq, Repr

/-- A nonempty range of `i64` values. -/
structure SolveIntegerDomain where
  minimum : Int
  maximum : Int
  le : minimum ≤ maximum
  minimum_i64 : IsI64 minimum
  maximum_i64 : IsI64 maximum

namespace SolveIntegerDomain

def contains (domain : SolveIntegerDomain) (value : Int) : Prop :=
  domain.minimum ≤ value ∧ value ≤ domain.maximum

instance (domain : SolveIntegerDomain) (value : Int) : Decidable (domain.contains value) :=
  inferInstanceAs (Decidable (_ ∧ _))

/-- The whole `i64` range. -/
def full : SolveIntegerDomain where
  minimum := -i64Limit
  maximum := i64Limit - 1
  le := by unfold i64Limit; norm_num
  minimum_i64 := by unfold IsI64 i64Limit; norm_num
  maximum_i64 := by unfold IsI64 i64Limit; norm_num

end SolveIntegerDomain

inductive SolveScalarType where
  | real
  | integer (domain : SolveIntegerDomain)
  | boolean

/-- A closed range of Integer values. -/
structure SolveIntegerInterval where
  low : Int
  high : Int
deriving DecidableEq, Repr

namespace SolveIntegerInterval

/-! ## The operations -/

def span (domain : SolveIntegerDomain) (first second : Int) : Option SolveIntegerInterval :=
  let low := min first second
  let high := max first second
  if domain.contains low ∧ domain.contains high then some ⟨low, high⟩ else none

def contains (interval : SolveIntegerInterval) (value : Int) : Prop :=
  interval.low ≤ value ∧ value ≤ interval.high

instance (interval : SolveIntegerInterval) (value : Int) : Decidable (interval.contains value) :=
  inferInstanceAs (Decidable (_ ∧ _))

def negate (self : SolveIntegerInterval) (domain : SolveIntegerDomain) : Option SolveIntegerInterval := do
  span domain (← checkedI64 (-self.high)) (← checkedI64 (-self.low))

def abs (self : SolveIntegerInterval) (domain : SolveIntegerDomain) : Option SolveIntegerInterval := do
  let high := max (← checkedI64 |self.low|) (← checkedI64 |self.high|)
  let low := if self.contains 0 then 0 else min |self.low| |self.high|
  span domain low high

def add (self other : SolveIntegerInterval) (domain : SolveIntegerDomain) : Option SolveIntegerInterval := do
  span domain (← checkedI64 (self.low + other.low)) (← checkedI64 (self.high + other.high))

def subtract (self other : SolveIntegerInterval) (domain : SolveIntegerDomain) : Option SolveIntegerInterval := do
  span domain (← checkedI64 (self.low - other.high)) (← checkedI64 (self.high - other.low))

def multiply (self other : SolveIntegerInterval) (domain : SolveIntegerDomain) : Option SolveIntegerInterval := do
  let first ← checkedI64 (self.low * other.low)
  let second ← checkedI64 (self.low * other.high)
  let third ← checkedI64 (self.high * other.low)
  let fourth ← checkedI64 (self.high * other.high)
  span domain (min (min first second) (min third fourth)) (max (max first second) (max third fourth))

def minimum (self other : SolveIntegerInterval) : SolveIntegerInterval :=
  ⟨min self.low other.low, min self.high other.high⟩

def maximum (self other : SolveIntegerInterval) : SolveIntegerInterval :=
  ⟨max self.low other.low, max self.high other.high⟩

def unary (self : SolveIntegerInterval) (operator : SolveUnaryOperator) (domain : SolveIntegerDomain) :
    Option SolveIntegerInterval :=
  match operator with
  | .negate => self.negate domain
  | .abs => self.abs domain
  | .sign => span domain self.low.sign self.high.sign
  | _ => none

def binary (self : SolveIntegerInterval) (operator : SolveBinaryOperator) (other : SolveIntegerInterval)
    (domain : SolveIntegerDomain) : Option SolveIntegerInterval :=
  match operator with
  | .add => self.add other domain
  | .subtract => self.subtract other domain
  | .multiply => self.multiply other domain
  | .min => some (self.minimum other)
  | .max => some (self.maximum other)
  | _ => none

end SolveIntegerInterval

/-! ## Scalar folds -/

/-- `value` when it lies in the domain of the Integer `result`. -/
def inDomain (result : SolveScalarType) (value : Int) : Option Int :=
  match result with
  | .integer domain => if domain.contains value then some value else none
  | _ => some value

def foldScalarUnary (result : SolveScalarType) (operator : SolveUnaryOperator) (value : Int) : Option Int := do
  let folded ← match result, operator with
    | .boolean, .not => some (if value = 0 then 1 else 0)
    | .integer _, .negate => checkedI64 (-value)
    | .integer _, .abs => checkedI64 |value|
    | .integer _, .sign => some value.sign
    | _, _ => none
  inDomain result folded

/-- `checked_div`. -/
def checkedDiv (lhs rhs : Int) : Option Int := if rhs = 0 then none else checkedI64 (lhs.tdiv rhs)

/-- `checked_rem`, which faults where the quotient does. -/
def checkedRem (lhs rhs : Int) : Option Int := (checkedDiv lhs rhs).map fun _ => lhs.tmod rhs

def foldScalarBinary (result : SolveScalarType) (operator : SolveBinaryOperator) (operands : Int × Int) :
    Option Int := do
  let (lhs, rhs) := operands
  let folded ← match result, operator with
    | .boolean, .and => some (Int.land lhs rhs)
    | .boolean, .or => some (Int.lor lhs rhs)
    | .integer _, .add => checkedI64 (lhs + rhs)
    | .integer _, .subtract => checkedI64 (lhs - rhs)
    | .integer _, .multiply => checkedI64 (lhs * rhs)
    | .integer _, .min => some (min lhs rhs)
    | .integer _, .max => some (max lhs rhs)
    | .integer _, .integerQuotient => checkedDiv lhs rhs
    | .integer _, .integerRemainder => checkedRem lhs rhs
    | .integer _, .integerModulo => do
      let remainder ← checkedRem lhs rhs
      if remainder ≠ 0 ∧ (remainder < 0 ↔ ¬rhs < 0) then checkedI64 (remainder + rhs) else some remainder
    | _, _ => none
  inDomain result folded

/-! ## Hulls -/

/-- The interval is inside the domain. -/
structure SolveIntegerInterval.Inside (interval : SolveIntegerInterval) (domain : SolveIntegerDomain) : Prop where
  le : interval.low ≤ interval.high
  low : domain.contains interval.low
  high : domain.contains interval.high

/-- An interval is given exactly when no member's fold faults, and it is the smallest that holds every result. -/
structure ExactHull {α : Type} (member : α → Prop) (fold : α → Option Int) (result : Option SolveIntegerInterval) :
    Prop where
  some_iff : (∃ hull, result = some hull) ↔ ∀ a, member a → ∃ value, fold a = some value
  holds : ∀ hull, result = some hull → ∀ a, member a → ∃ value, fold a = some value ∧ hull.contains value
  least : ∀ hull, result = some hull → ∀ low high,
    (∀ a, member a → ∀ value, fold a = some value → low ≤ value ∧ value ≤ high) → low ≤ hull.low ∧ hull.high ≤ high

/-- The least and the greatest value of an operation over its members. -/
structure Extremes {α : Type} (member : α → Prop) (f : α → Int) (low high : Int) : Prop where
  bounds : ∀ a, member a → low ≤ f a ∧ f a ≤ high
  low_at : ∃ a, member a ∧ f a = low
  high_at : ∃ a, member a ∧ f a = high

section

variable {domain : SolveIntegerDomain}

theorem SolveIntegerDomain.contains.isI64 {value : Int} (h : domain.contains value) : IsI64 value :=
  ⟨domain.minimum_i64.1.trans h.1, h.2.trans_lt domain.maximum_i64.2⟩

theorem SolveIntegerDomain.contains.between {low value high : Int} (hlow : domain.contains low)
    (hhigh : domain.contains high) (hle : low ≤ value) (hge : value ≤ high) : domain.contains value :=
  ⟨hlow.1.trans hle, hge.trans hhigh.2⟩

theorem SolveIntegerDomain.contains.min {a b : Int} (ha : domain.contains a) (hb : domain.contains b) :
    domain.contains (min a b) := ⟨le_min ha.1 hb.1, min_le_of_left_le ha.2⟩

theorem SolveIntegerDomain.contains.max {a b : Int} (ha : domain.contains a) (hb : domain.contains b) :
    domain.contains (max a b) := ⟨le_max_of_le_left ha.1, max_le ha.2 hb.2⟩

theorem checkedI64_of_contains {value : Int} (h : domain.contains value) : checkedI64 value = some value :=
  checkedI64_eq_some.2 ⟨rfl, h.isI64⟩

theorem inDomain_checkedI64 (value : Int) : (checkedI64 value >>= inDomain (.integer domain)) =
    if domain.contains value then some value else none := by
  by_cases h : domain.contains value
  · simp [checkedI64_of_contains h, inDomain, h]
  · cases hc : checkedI64 value with
    | none => simp [h]
    | some checked =>
      obtain ⟨rfl, -⟩ := checkedI64_eq_some.1 hc
      simp [inDomain, h]

theorem span_of_le {low high : Int} (h : low ≤ high) : SolveIntegerInterval.span domain low high =
    if domain.contains low ∧ domain.contains high then some ⟨low, high⟩ else none := by
  unfold SolveIntegerInterval.span
  rw [min_eq_left h, max_eq_right h]

/-- A checked corner that lies between the ends does not change what the ends decide. -/
theorem bind_checkedI64 {value low high : Int} (hle : low ≤ value) (hge : value ≤ high)
    {rest : Int → Option SolveIntegerInterval} {hull : SolveIntegerInterval}
    (hrest : rest value = if domain.contains low ∧ domain.contains high then some hull else none) :
    (checkedI64 value >>= rest) = if domain.contains low ∧ domain.contains high then some hull else none := by
  cases hvalue : checkedI64 value with
  | none =>
    refine (if_neg fun hends => ?_).symm
    rw [checkedI64_of_contains (hends.1.between hends.2 hle hge)] at hvalue
    cases hvalue
  | some checked =>
    obtain ⟨rfl, -⟩ := checkedI64_eq_some.1 hvalue
    exact hrest

theorem span_checked {low high : Int} (h : low ≤ high) :
    (do SolveIntegerInterval.span domain (← checkedI64 low) (← checkedI64 high)) =
      if domain.contains low ∧ domain.contains high then some ⟨low, high⟩ else none :=
  bind_checkedI64 (le_refl _) h (bind_checkedI64 h (le_refl _) (span_of_le h))

theorem Extremes.exactHull {α : Type} {member : α → Prop} {f : α → Int} {low high : Int}
    (h : Extremes member f low high) {fold : α → Option Int}
    (hfold : ∀ a, member a → fold a = if domain.contains (f a) then some (f a) else none) :
    ExactHull member fold (if domain.contains low ∧ domain.contains high then some ⟨low, high⟩ else none) := by
  obtain ⟨hbounds, ⟨a, ha, rfl⟩, ⟨b, hb, rfl⟩⟩ := h
  have hin : domain.contains (f a) ∧ domain.contains (f b) → ∀ c, member c → fold c = some (f c) := by
    intro hends c hc
    obtain ⟨hle, hge⟩ := hbounds c hc
    rw [hfold c hc, if_pos (hends.1.between hends.2 hle hge)]
  have hsome : ∀ c, member c → (∃ value, fold c = some value) → domain.contains (f c) := by
    intro c hc hvalue
    by_contra hnot
    rw [hfold c hc, if_neg hnot] at hvalue
    simp at hvalue
  by_cases hends : domain.contains (f a) ∧ domain.contains (f b)
  · rw [if_pos hends]
    refine ⟨⟨fun _ c hc => ⟨_, hin hends c hc⟩, fun _ => ⟨_, rfl⟩⟩, ?_, ?_⟩
    · rintro _ ⟨⟩ c hc
      exact ⟨_, hin hends c hc, hbounds c hc⟩
    · rintro _ ⟨⟩ low high hresults
      exact ⟨(hresults a ha _ (hin hends a ha)).1, (hresults b hb _ (hin hends b hb)).2⟩
  · rw [if_neg hends]
    refine ⟨⟨fun ⟨_, hhull⟩ => (nomatch hhull), fun hall => ?_⟩, fun _ hhull => (nomatch hhull),
      fun _ hhull => (nomatch hhull)⟩
    exact absurd ⟨hsome a ha (hall a ha), hsome b hb (hall b hb)⟩ hends

theorem exactHull_none {α : Type} {member : α → Prop} {fold : α → Option Int} (hfold : ∀ a, fold a = none) {a : α}
    (ha : member a) : ExactHull member fold none := by
  refine ⟨⟨fun ⟨_, hhull⟩ => (nomatch hhull), fun hall => ?_⟩, fun _ hhull => (nomatch hhull),
    fun _ hhull => (nomatch hhull)⟩
  obtain ⟨value, hvalue⟩ := hall a ha
  rw [hfold] at hvalue
  cases hvalue

/-! ## The extremes of each operation -/

variable {self other : SolveIntegerInterval}

theorem extremes_negate (h : self.Inside domain) : Extremes self.contains (fun v => -v) (-self.high) (-self.low) :=
  ⟨fun _ hv => ⟨neg_le_neg hv.2, neg_le_neg hv.1⟩, ⟨_, ⟨h.le, le_refl _⟩, rfl⟩, ⟨_, ⟨le_refl _, h.le⟩, rfl⟩⟩

theorem extremes_abs (h : self.Inside domain) : Extremes self.contains (fun v => |v|)
    (if self.contains 0 then 0 else min |self.low| |self.high|) (max |self.low| |self.high|) := by
  have hle := h.le
  have hmax : ∀ v, self.contains v → |v| ≤ max |self.low| |self.high| := fun v hv => abs_le_max_abs_abs hv.1 hv.2
  have hat : ∃ v, self.contains v ∧ |v| = max |self.low| |self.high| := by
    rcases max_choice |self.low| |self.high| with hc | hc
    · exact ⟨_, ⟨le_refl _, hle⟩, hc.symm⟩
    · exact ⟨_, ⟨hle, le_refl _⟩, hc.symm⟩
  by_cases hzero : self.contains 0
  · rw [if_pos hzero]
    exact ⟨fun v hv => ⟨abs_nonneg v, hmax v hv⟩, ⟨0, hzero, abs_zero⟩, hat⟩
  · rw [if_neg hzero]
    refine ⟨fun v hv => ⟨?_, hmax v hv⟩, ?_, hat⟩
    · -- all members are on one side of zero
      obtain ⟨hlow, hhigh⟩ := hv
      unfold SolveIntegerInterval.contains at hzero
      rw [min_le_iff]
      rcases le_or_gt 0 self.low with hpos | hneg
      · exact .inl (abs_le_abs_of_nonneg hpos hlow)
      · have hneg' : self.high ≤ 0 := by omega
        exact .inr (abs_le_abs_of_nonpos hneg' hhigh)
    · rcases min_choice |self.low| |self.high| with hc | hc
      · exact ⟨_, ⟨le_refl _, hle⟩, hc.symm⟩
      · exact ⟨_, ⟨hle, le_refl _⟩, hc.symm⟩

theorem sign_mono {a b : Int} (h : a ≤ b) : a.sign ≤ b.sign := by
  rcases lt_trichotomy a 0 with ha | rfl | ha
  · rw [Int.sign_eq_neg_one_of_neg ha]
    rcases lt_trichotomy b 0 with hb | rfl | hb
    · rw [Int.sign_eq_neg_one_of_neg hb]
    · decide
    · rw [Int.sign_eq_one_of_pos hb]
      decide
  · rcases h.eq_or_lt with rfl | hb
    · exact le_refl _
    · rw [Int.sign_eq_one_of_pos hb]
      decide
  · rw [Int.sign_eq_one_of_pos ha, Int.sign_eq_one_of_pos (ha.trans_le h)]

theorem extremes_sign (h : self.Inside domain) : Extremes self.contains Int.sign self.low.sign self.high.sign :=
  ⟨fun _ hv => ⟨sign_mono hv.1, sign_mono hv.2⟩, ⟨_, ⟨le_refl _, h.le⟩, rfl⟩, ⟨_, ⟨h.le, le_refl _⟩, rfl⟩⟩

def MemberPair (self other : SolveIntegerInterval) (pair : Int × Int) : Prop :=
  self.contains pair.1 ∧ other.contains pair.2

theorem SolveIntegerInterval.Inside.low_mem (h : self.Inside domain) : self.contains self.low := ⟨le_refl _, h.le⟩

theorem SolveIntegerInterval.Inside.high_mem (h : self.Inside domain) : self.contains self.high := ⟨h.le, le_refl _⟩

variable (hself : self.Inside domain) (hother : other.Inside domain)

include hself hother

theorem extremes_add : Extremes (MemberPair self other) (fun pair => pair.1 + pair.2) (self.low + other.low)
    (self.high + other.high) :=
  ⟨fun _ hv => ⟨add_le_add hv.1.1 hv.2.1, add_le_add hv.1.2 hv.2.2⟩,
    ⟨(_, _), ⟨hself.low_mem, hother.low_mem⟩, rfl⟩, ⟨(_, _), ⟨hself.high_mem, hother.high_mem⟩, rfl⟩⟩

theorem extremes_subtract : Extremes (MemberPair self other) (fun pair => pair.1 - pair.2) (self.low - other.high)
    (self.high - other.low) :=
  ⟨fun _ hv => ⟨sub_le_sub hv.1.1 hv.2.2, sub_le_sub hv.1.2 hv.2.1⟩,
    ⟨(_, _), ⟨hself.low_mem, hother.high_mem⟩, rfl⟩, ⟨(_, _), ⟨hself.high_mem, hother.low_mem⟩, rfl⟩⟩

theorem extremes_min : Extremes (MemberPair self other) (fun pair => min pair.1 pair.2) (min self.low other.low)
    (min self.high other.high) :=
  ⟨fun _ hv => ⟨min_le_min hv.1.1 hv.2.1, min_le_min hv.1.2 hv.2.2⟩,
    ⟨(_, _), ⟨hself.low_mem, hother.low_mem⟩, rfl⟩, ⟨(_, _), ⟨hself.high_mem, hother.high_mem⟩, rfl⟩⟩

theorem extremes_max : Extremes (MemberPair self other) (fun pair => max pair.1 pair.2) (max self.low other.low)
    (max self.high other.high) :=
  ⟨fun _ hv => ⟨max_le_max hv.1.1 hv.2.1, max_le_max hv.1.2 hv.2.2⟩,
    ⟨(_, _), ⟨hself.low_mem, hother.low_mem⟩, rfl⟩, ⟨(_, _), ⟨hself.high_mem, hother.high_mem⟩, rfl⟩⟩

omit hself hother in
/-- A product is between the products of one factor's bounds. -/
theorem mul_between {low x high y : Int} (hlow : low ≤ x) (hhigh : x ≤ high) :
    min (low * y) (high * y) ≤ x * y ∧ x * y ≤ max (low * y) (high * y) := by
  rcases le_total 0 y with hy | hy
  · exact ⟨min_le_of_left_le (mul_le_mul_of_nonneg_right hlow hy), le_max_of_le_right (mul_le_mul_of_nonneg_right hhigh hy)⟩
  · exact ⟨min_le_of_right_le (mul_le_mul_of_nonpos_right hhigh hy), le_max_of_le_left (mul_le_mul_of_nonpos_right hlow hy)⟩

theorem extremes_multiply : Extremes (MemberPair self other) (fun pair => pair.1 * pair.2)
    (min (min (self.low * other.low) (self.low * other.high)) (min (self.high * other.low) (self.high * other.high)))
    (max (max (self.low * other.low) (self.low * other.high)) (max (self.high * other.low) (self.high * other.high))) := by
  have hcorner : ∀ x, self.contains x → ∀ y, other.contains y →
      ∃ pair, MemberPair self other pair ∧ pair.1 * pair.2 = x * y := fun x hx y hy => ⟨(x, y), ⟨hx, hy⟩, rfl⟩
  refine ⟨fun pair hpair => ?_, ?_, ?_⟩
  · obtain ⟨⟨hlow, hhigh⟩, hlow', hhigh'⟩ := hpair
    have hx := mul_between (y := pair.2) hlow hhigh
    have hleft := mul_between (y := self.low) hlow' hhigh'
    have hright := mul_between (y := self.high) hlow' hhigh'
    simp only [mul_comm pair.2, mul_comm other.low, mul_comm other.high] at hleft hright
    exact ⟨(min_le_min hleft.1 hright.1).trans hx.1, hx.2.trans (max_le_max hleft.2 hright.2)⟩
  · rcases min_choice (min (self.low * other.low) (self.low * other.high))
      (min (self.high * other.low) (self.high * other.high)) with h | h
    · rw [h]
      rcases min_choice (self.low * other.low) (self.low * other.high) with h | h <;> rw [h]
      · exact hcorner _ hself.low_mem _ hother.low_mem
      · exact hcorner _ hself.low_mem _ hother.high_mem
    · rw [h]
      rcases min_choice (self.high * other.low) (self.high * other.high) with h | h <;> rw [h]
      · exact hcorner _ hself.high_mem _ hother.low_mem
      · exact hcorner _ hself.high_mem _ hother.high_mem
  · rcases max_choice (max (self.low * other.low) (self.low * other.high))
      (max (self.high * other.low) (self.high * other.high)) with h | h
    · rw [h]
      rcases max_choice (self.low * other.low) (self.low * other.high) with h | h <;> rw [h]
      · exact hcorner _ hself.low_mem _ hother.low_mem
      · exact hcorner _ hself.low_mem _ hother.high_mem
    · rw [h]
      rcases max_choice (self.high * other.low) (self.high * other.high) with h | h <;> rw [h]
      · exact hcorner _ hself.high_mem _ hother.low_mem
      · exact hcorner _ hself.high_mem _ hother.high_mem

end

/-! ## The interval operations -/

namespace SolveIntegerInterval

def Untracked (operator : SolveBinaryOperator) : Prop :=
  operator = .integerQuotient ∨ operator = .integerModulo ∨ operator = .integerRemainder

variable {domain : SolveIntegerDomain} {self other : SolveIntegerInterval}

theorem unary_exact (h : self.Inside domain) (operator : SolveUnaryOperator) :
    ExactHull self.contains (foldScalarUnary (.integer domain) operator) (self.unary operator domain) := by
  cases operator with
  | negate =>
    unfold unary negate
    rw [span_checked (neg_le_neg h.le)]
    exact (extremes_negate h).exactHull fun v _ => inDomain_checkedI64 (-v)
  | abs =>
    have hextremes := extremes_abs h
    have hlow := hextremes.bounds _ h.low_mem
    have hhigh := hextremes.bounds _ h.high_mem
    have habs : self.abs domain = if domain.contains (if self.contains 0 then 0 else min |self.low| |self.high|) ∧
        domain.contains (max |self.low| |self.high|) then some ⟨_, _⟩ else none :=
      bind_checkedI64 hlow.1 hlow.2 (bind_checkedI64 hhigh.1 hhigh.2 (span_of_le (hlow.1.trans hlow.2)))
    unfold unary
    rw [habs]
    exact hextremes.exactHull fun v _ => inDomain_checkedI64 |v|
  | sign =>
    unfold unary
    rw [span_of_le (sign_mono h.le)]
    exact (extremes_sign h).exactHull fun v _ => rfl
  | _ => exact exactHull_none (fun _ => rfl) h.low_mem

theorem binary_exact (hself : self.Inside domain) (hother : other.Inside domain) {operator : SolveBinaryOperator}
    (hoperator : ¬Untracked operator) :
    ExactHull (MemberPair self other) (foldScalarBinary (.integer domain) operator)
      (self.binary operator other domain) := by
  cases operator with
  | add =>
    unfold binary add
    rw [span_checked (add_le_add hself.le hother.le)]
    exact (extremes_add hself hother).exactHull fun pair _ => inDomain_checkedI64 (pair.1 + pair.2)
  | subtract =>
    unfold binary subtract
    rw [span_checked (sub_le_sub hself.le hother.le)]
    exact (extremes_subtract hself hother).exactHull fun pair _ => inDomain_checkedI64 (pair.1 - pair.2)
  | multiply =>
    have hextremes := extremes_multiply hself hother
    have hcorner : ∀ x, self.contains x → ∀ y, other.contains y → _ := fun x hx y hy =>
      hextremes.bounds (x, y) ⟨hx, hy⟩
    have hfirst := hcorner _ hself.low_mem _ hother.low_mem
    have hsecond := hcorner _ hself.low_mem _ hother.high_mem
    have hthird := hcorner _ hself.high_mem _ hother.low_mem
    have hfourth := hcorner _ hself.high_mem _ hother.high_mem
    have hmultiply : self.multiply other domain = if domain.contains _ ∧ domain.contains _ then some ⟨_, _⟩ else none :=
      bind_checkedI64 hfirst.1 hfirst.2 (bind_checkedI64 hsecond.1 hsecond.2 (bind_checkedI64 hthird.1 hthird.2
        (bind_checkedI64 hfourth.1 hfourth.2 (span_of_le (hfirst.1.trans hfirst.2)))))
    unfold binary
    rw [hmultiply]
    exact hextremes.exactHull fun pair _ => inDomain_checkedI64 (pair.1 * pair.2)
  | min =>
    have h : ExactHull (MemberPair self other) (foldScalarBinary (.integer domain) .min) _ :=
      (extremes_min hself hother).exactHull fun pair _ => rfl
    rwa [if_pos ⟨hself.low.min hother.low, hself.high.min hother.high⟩] at h
  | max =>
    have h : ExactHull (MemberPair self other) (foldScalarBinary (.integer domain) .max) _ :=
      (extremes_max hself hother).exactHull fun pair _ => rfl
    rwa [if_pos ⟨hself.low.max hother.low, hself.high.max hother.high⟩] at h
  | integerQuotient => exact absurd (.inl rfl) hoperator
  | integerModulo => exact absurd (.inr (.inl rfl)) hoperator
  | integerRemainder => exact absurd (.inr (.inr rfl)) hoperator
  | _ => exact exactHull_none (fun _ => rfl) (⟨hself.low_mem, hother.low_mem⟩ : MemberPair self other (_, _))

/-- An operation has an interval exactly when it faults on no member, or no pair of members, and then the
smallest one. The three Integer divisions have none. -/
theorem operations_exact (domain : SolveIntegerDomain) :
    (∀ self : SolveIntegerInterval, self.Inside domain → ∀ operator,
      ExactHull self.contains (foldScalarUnary (.integer domain) operator) (self.unary operator domain)) ∧
    ∀ self other : SolveIntegerInterval, self.Inside domain → other.Inside domain → ∀ operator,
      (¬Untracked operator → ExactHull (MemberPair self other) (foldScalarBinary (.integer domain) operator)
        (self.binary operator other domain)) ∧
      (Untracked operator → self.binary operator other domain = none) := by
  refine ⟨fun self h operator => unary_exact h operator, fun self other hself hother operator =>
    ⟨binary_exact hself hother, ?_⟩⟩
  rintro (rfl | rfl | rfl) <;> rfl

theorem operations_exact_full :
    ExactHull (⟨-5, 3⟩ : SolveIntegerInterval).contains (foldScalarUnary (.integer .full) .abs) (some ⟨0, 5⟩) ∧
      ExactHull (MemberPair ⟨-2, 3⟩ ⟨-4, 5⟩) (foldScalarBinary (.integer .full) .multiply) (some ⟨-12, 15⟩) :=
  ⟨(operations_exact .full).1 ⟨-5, 3⟩ ⟨by decide, by decide, by decide⟩ .abs,
    ((operations_exact .full).2 ⟨-2, 3⟩ ⟨-4, 5⟩ ⟨by decide, by decide, by decide⟩ ⟨by decide, by decide, by decide⟩
      .multiply).1 (by rintro (h | h | h) <;> cases h)⟩

/-- Six by two does not fault, and has no interval. -/
theorem integerQuotient_untracked : ¬∀ (domain : SolveIntegerDomain) (self other : SolveIntegerInterval),
    self.Inside domain → other.Inside domain → ∀ operator,
      ExactHull (MemberPair self other) (foldScalarBinary (.integer domain) operator)
        (self.binary operator other domain) := by
  intro h
  have hquotient := h .full ⟨6, 6⟩ ⟨2, 2⟩ ⟨by decide, by decide, by decide⟩ ⟨by decide, by decide, by decide⟩
    .integerQuotient
  have hfold : ∀ pair, MemberPair ⟨6, 6⟩ ⟨2, 2⟩ pair →
      ∃ value, foldScalarBinary (.integer .full) .integerQuotient pair = some value := by
    rintro ⟨x, y⟩ ⟨⟨hx, hx'⟩, hy, hy'⟩
    obtain rfl : x = 6 := le_antisymm hx' hx
    obtain rfl : y = 2 := le_antisymm hy' hy
    exact ⟨3, by decide⟩
  obtain ⟨hull, hhull⟩ := hquotient.some_iff.2 hfold
  cases hhull

end SolveIntegerInterval

end Rumoca.Solve
