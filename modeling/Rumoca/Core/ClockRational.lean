import Rumoca.Lib.Loop
import Rumoca.Machine
/-!
# Exact clock rationals

The periods and phases of clocks, as reduced fractions of `i128`. Sums,
products and quotients are checked; a comparison strips equal integer parts and
turns to the reciprocals of the remainders. A panic (an overflow, a division by
zero) is `none` under the errors.
-/

namespace Rumoca.Core

open Rumoca.Lib

/-! ## 128-bit integers -/

/-- One past the largest `i128`. -/
def i128Limit : Int := 2 ^ 127

/-- One past the largest `u128`. -/
def u128Limit : Nat := 2 ^ 128

/-- The values of `i128`. -/
def IsI128 (z : Int) : Prop := -i128Limit ≤ z ∧ z < i128Limit

instance (z : Int) : Decidable (IsI128 z) := inferInstanceAs (Decidable (_ ∧ _))

def checkedI128 (z : Int) : Option Int := if IsI128 z then some z else none

def checkedU128 (n : Nat) : Option Nat := if n < u128Limit then some n else none

/-- `z as u128`. -/
def asU128 (z : Int) : Nat := (z % u128Limit).toNat

/-- `a / b` on `u128`. -/
def divideU128 (a b : Nat) : Option Nat := if b = 0 then none else some (a / b)

/-- `a / b` on `i128`. -/
def divideI128 (a b : Int) : Option Int := if b = 0 then none else checkedI128 (a.tdiv b)

/-! ## Errors -/

inductive ClockLatticeErrorKind where
  | nonFiniteSeconds
  | zeroDenominator
  | nonPositivePeriod
  | nonPositiveFactor
  | integerOverflow
  | notRationallyRepresentable
  | clockStartsBeforeBaseClock
deriving DecidableEq

abbrev LatticeResult := ExceptT ClockLatticeErrorKind Option

namespace LatticeResult

/-- `ok_or(IntegerOverflow)`. -/
def orOverflow {α : Type} : Option α → LatticeResult α
  | some a => pure a
  | none => throw .integerOverflow

/-- An operation that panics at `none`. -/
def orAbort {α : Type} (x : Option α) : LatticeResult α := ExceptT.mk (x.map .ok)

@[simp] theorem orOverflow_some {α : Type} (a : α) : orOverflow (some a) = pure a := rfl

@[simp] theorem orAbort_some {α : Type} (a : α) : orAbort (some a) = pure a := rfl

end LatticeResult

open LatticeResult

/-! ## Magnitudes -/

def positiveFromMagnitude (value : Nat) : LatticeResult Int := orOverflow (checkedI128 value)

def signedFromMagnitude (value : Nat) (negative : Bool) : LatticeResult Int :=
  if !negative then positiveFromMagnitude value
  else if value = 2 ^ 127 then pure (-i128Limit)
  else do
    let value ← positiveFromMagnitude value
    orAbort (checkedI128 (-value))

def gcdTurn (s : Nat × Nat) : Option (Ctl (Nat × Nat) Nat) :=
  if s.2 ≠ 0 then some (.next (s.2, s.1 % s.2)) else some (.done (if s.1 = 0 then 1 else s.1))

def gcdU128 (a b : Nat) : Option Nat := loop gcdTurn (b + 1) (a, b)

def divideSignedByUnsigned (value : Int) (divisor : Nat) : LatticeResult Int := do
  let magnitude ← orAbort (divideU128 value.natAbs divisor)
  signedFromMagnitude magnitude (decide (value < 0))

def dividePositiveByUnsigned (value : Int) (divisor : Nat) : LatticeResult Int :=
  if value ≤ 0 then orAbort none
  else do
    let magnitude ← orAbort (divideU128 (asU128 value) divisor)
    positiveFromMagnitude magnitude

/-! ## The operations -/

structure ClockRational where
  num : Int
  den : Int
deriving DecidableEq

namespace ClockRational

def zero : ClockRational := ⟨0, 1⟩

/-- The exact integer `value`. -/
def integer (value : Int) : ClockRational := ⟨value, 1⟩

def isZero (r : ClockRational) : Bool := decide (r.num = 0)

def fromSignedMagnitude (numerator : Nat) (negative : Bool) (denominator : Nat) : LatticeResult ClockRational :=
  if numerator = 0 then pure zero
  else do
    let divisor ← orAbort (gcdU128 numerator denominator)
    let num ← signedFromMagnitude (← orAbort (divideU128 numerator divisor)) negative
    let den ← positiveFromMagnitude (← orAbort (divideU128 denominator divisor))
    pure ⟨num, den⟩

def reduce (num den : Int) : LatticeResult ClockRational :=
  if den = 0 then throw .zeroDenominator
  else if num = 0 then pure zero
  else fromSignedMagnitude num.natAbs (decide (num < 0) != decide (den < 0)) den.natAbs

def checkedSameDenominator (self other : ClockRational) (subtract : Bool) : LatticeResult ClockRational := do
  let lhsNegative := decide (self.num < 0)
  let rhsNegative := decide (other.num < 0) != subtract
  let lhs := self.num.natAbs
  let rhs := other.num.natAbs
  let (magnitude, negative) ←
    if lhsNegative = rhsNegative then do
      let magnitude ← orOverflow (checkedU128 (lhs + rhs))
      pure (magnitude, lhsNegative)
    else if rhs ≤ lhs then pure (lhs - rhs, lhsNegative)
    else pure (rhs - lhs, rhsNegative)
  fromSignedMagnitude magnitude negative (asU128 self.den)

/-- `checked_add`, and with `subtract` the same lines of `checked_sub`. -/
def checkedCombine (self other : ClockRational) (subtract : Bool) : LatticeResult ClockRational :=
  if self.den = other.den then checkedSameDenominator self other subtract
  else do
    let denominatorGcd ← orAbort (gcdU128 (asU128 self.den) (asU128 other.den))
    let denominatorGcd ← positiveFromMagnitude denominatorGcd
    let lhsScale ← orAbort (divideI128 other.den denominatorGcd)
    let rhsScale ← orAbort (divideI128 self.den denominatorGcd)
    let lhs ← orOverflow (checkedI128 (self.num * lhsScale))
    let rhs ← orOverflow (checkedI128 (other.num * rhsScale))
    let num ← orOverflow (checkedI128 (if subtract then lhs - rhs else lhs + rhs))
    let den ← orOverflow (checkedI128 (self.den * lhsScale))
    reduce num den

def checkedAdd (self other : ClockRational) : LatticeResult ClockRational := checkedCombine self other false

def checkedSub (self other : ClockRational) : LatticeResult ClockRational := checkedCombine self other true

def checkedMul (self other : ClockRational) : LatticeResult ClockRational :=
  if self.isZero || other.isZero then pure zero
  else do
    let leftDivisor ← orAbort (gcdU128 self.num.natAbs (asU128 other.den))
    let rightDivisor ← orAbort (gcdU128 other.num.natAbs (asU128 self.den))
    let lhsNum ← divideSignedByUnsigned self.num leftDivisor
    let rhsNum ← divideSignedByUnsigned other.num rightDivisor
    let lhsDen ← dividePositiveByUnsigned self.den rightDivisor
    let rhsDen ← dividePositiveByUnsigned other.den leftDivisor
    let num ← orOverflow (checkedI128 (lhsNum * rhsNum))
    let den ← orOverflow (checkedI128 (lhsDen * rhsDen))
    reduce num den

def checkedDiv (self other : ClockRational) : LatticeResult ClockRational :=
  if other.isZero then throw .zeroDenominator
  else if self.isZero then pure zero
  else do
    let numeratorDivisor ← orAbort (gcdU128 self.num.natAbs other.num.natAbs)
    let denominatorDivisor ← orAbort (gcdU128 (asU128 self.den) (asU128 other.den))
    let lhsNum ← divideSignedByUnsigned self.num numeratorDivisor
    let rhsNum ← divideSignedByUnsigned other.num numeratorDivisor
    let lhsDen ← dividePositiveByUnsigned self.den denominatorDivisor
    let rhsDen ← dividePositiveByUnsigned other.den denominatorDivisor
    let num ← orOverflow (checkedI128 (lhsNum * rhsDen))
    let den ← orOverflow (checkedI128 (lhsDen * rhsNum))
    reduce num den

def checkedMulInteger (self : ClockRational) (factor : Int) : LatticeResult ClockRational :=
  self.checkedMul (integer factor)

def checkedDivInteger (self : ClockRational) (divisor : Int) : LatticeResult ClockRational :=
  if divisor = 0 then throw .zeroDenominator else self.checkedDiv (integer divisor)

/-! ## Comparison -/

/-- Two fractions, and whether their order is turned. -/
structure Fractions where
  lhsNum : Nat
  lhsDen : Nat
  rhsNum : Nat
  rhsDen : Nat
  reversed : Bool

def Fractions.answer (s : Fractions) (ordering : Ordering) : Ordering :=
  if s.reversed then ordering.swap else ordering

def compareTurn (s : Fractions) : Option (Ctl Fractions Ordering) := do
  let lhsInteger ← divideU128 s.lhsNum s.lhsDen
  let rhsInteger ← divideU128 s.rhsNum s.rhsDen
  if lhsInteger ≠ rhsInteger then pure (.done (s.answer (compare lhsInteger rhsInteger)))
  else
    let lhsRemainder := s.lhsNum % s.lhsDen
    let rhsRemainder := s.rhsNum % s.rhsDen
    match decide (lhsRemainder = 0), decide (rhsRemainder = 0) with
    | true, true => pure (.done .eq)
    | true, false => pure (.done (if s.reversed then .gt else .lt))
    | false, true => pure (.done (if s.reversed then .lt else .gt))
    | false, false => pure (.next ⟨s.lhsDen, lhsRemainder, s.rhsDen, rhsRemainder, !s.reversed⟩)

def comparePositiveFractions (lhsNum lhsDen rhsNum rhsDen : Nat) : Option Ordering :=
  loop compareTurn (lhsDen + 1) ⟨lhsNum, lhsDen, rhsNum, rhsDen, false⟩

def cmp (self other : ClockRational) : Option Ordering :=
  match decide (self.num < 0), decide (other.num < 0) with
  | true, false => some .lt
  | false, true => some .gt
  | false, false => comparePositiveFractions (asU128 self.num) (asU128 self.den) (asU128 other.num) (asU128 other.den)
  | true, true => comparePositiveFractions other.num.natAbs (asU128 other.den) self.num.natAbs (asU128 self.den)

/-! ## Canonical values -/

/-- A reduced fraction of `i128` over a positive denominator. -/
structure Canonical (r : ClockRational) : Prop where
  num_range : IsI128 r.num
  den_pos : 0 < r.den
  den_lt : r.den < i128Limit
  coprime : Nat.Coprime r.num.natAbs r.den.natAbs

def value (r : ClockRational) : ℚ := r.num / r.den

end ClockRational

end Rumoca.Core
