import Rumoca.Dae.System
/-!
# The sides of a residual

A residual that states an equality, read as the equality of two operands: exact
literal zeros around it and signs are passed, since they do not move its zeros.
-/

namespace Rumoca.DaeTransform

open Rumoca.Dae

/-- The literals `0` and `0.0`. -/
def isLiteralZero : Expr → Bool
  | .literal (.integer n) => n == 0
  | .literal (.real q) => q == 0
  | _ => false

def negatedOperand : Expr → Option Expr
  | .unary .negate a => some a
  | _ => none

/-- The two sides of the equality that a residual states, without exact zeros
around it. `zero` is the last zero passed. -/
def equationSides (zero : Option Expr) : Expr → Option (Expr × Expr)
  | .unary .plus a | .unary .negate a => equationSides zero a
  | .binary .add lhs rhs =>
    if isLiteralZero lhs then equationSides (some lhs) rhs
    else if isLiteralZero rhs then equationSides (some rhs) lhs
    else match negatedOperand rhs, negatedOperand lhs with
      -- `a + (-b) = 0` states `a = b`
      | some negated, _ => some (lhs, negated)
      | none, some negated => some (rhs, negated)
      | none, none => none
  | .binary .subtract lhs rhs =>
    if isLiteralZero lhs then equationSides (some lhs) rhs
    else if isLiteralZero rhs then equationSides (some rhs) lhs
    else some (lhs, rhs)
  | e => zero.map fun zero => (e, zero)

section Sound

variable {R : Type} [CommRing R] [Algebra ℚ R] {view : DaeView} {ops : Operations R} {env : Env R} {k : Nat}

def scalarAt (view : DaeView) (ops : Operations R) (env : Env R) (k : Nat) (e : Expr) : Option R :=
  (view.eval ops env e).bind (·.entryAt k)

theorem scalarAt_plus (a : Expr) : scalarAt view ops env k (.unary .plus a) = scalarAt view ops env k a := by
  rw [scalarAt, DaeView.eval_plus, scalarAt]

theorem scalarAt_negate {a : Expr} {r : R} (h : scalarAt view ops env k (.unary .negate a) = some r) :
    scalarAt view ops env k a = some (-r) := by
  obtain ⟨v, hv, hr⟩ := Option.bind_eq_some_iff.1 h
  simp only [DaeView.eval, Expr.eval, bind, Option.bind_eq_some_iff] at hv
  obtain ⟨w, hw, hmap⟩ := hv
  obtain ⟨s, hs, rfl⟩ := Value.entryAt_map hmap hr
  exact Option.bind_eq_some_iff.2 ⟨w, hw, by rw [neg_neg]; exact hs⟩

theorem scalarAt_add {a b : Expr} {r : R} (h : scalarAt view ops env k (.binary .add a b) = some r) :
    ∃ x y, scalarAt view ops env k a = some x ∧ scalarAt view ops env k b = some y ∧ x + y = r := by
  obtain ⟨v, hv, hr⟩ := Option.bind_eq_some_iff.1 h
  simp only [DaeView.eval, Expr.eval, bind, Option.bind_eq_some_iff] at hv
  obtain ⟨va, ha, vb, hb, hzip⟩ := hv
  obtain ⟨x, y, hx, hy, hxy⟩ := Value.entryAt_zipWith hzip hr
  exact ⟨x, y, Option.bind_eq_some_iff.2 ⟨va, ha, hx⟩, Option.bind_eq_some_iff.2 ⟨vb, hb, hy⟩, hxy⟩

theorem scalarAt_subtract {a b : Expr} {r : R} (h : scalarAt view ops env k (.binary .subtract a b) = some r) :
    ∃ x y, scalarAt view ops env k a = some x ∧ scalarAt view ops env k b = some y ∧ x - y = r := by
  obtain ⟨v, hv, hr⟩ := Option.bind_eq_some_iff.1 h
  simp only [DaeView.eval, Expr.eval, bind, Option.bind_eq_some_iff] at hv
  obtain ⟨va, ha, vb, hb, hzip⟩ := hv
  obtain ⟨x, y, hx, hy, hxy⟩ := Value.entryAt_zipWith hzip hr
  exact ⟨x, y, Option.bind_eq_some_iff.2 ⟨va, ha, hx⟩, Option.bind_eq_some_iff.2 ⟨vb, hb, hy⟩, hxy⟩

theorem scalarAt_literalZero {e : Expr} (he : isLiteralZero e = true) {r : R}
    (hr : scalarAt view ops env k e = some r) : r = 0 := by
  have hvalue : view.eval ops env e = some (.scalar 0) := by
    unfold isLiteralZero at he
    split at he
    · rw [beq_iff_eq.1 he]
      simp [DaeView.eval, Expr.eval, DaeLiteral.value]
    · rw [beq_iff_eq.1 he]
      simp [DaeView.eval, Expr.eval, DaeLiteral.value]
    · cases he
  rw [scalarAt, hvalue] at hr
  obtain ⟨v, hv, hr⟩ := Option.bind_eq_some_iff.1 hr
  cases hv
  exact (List.mem_singleton.1 (List.mem_of_getElem? hr))

theorem negatedOperand_eq {e a : Expr} (h : negatedOperand e = some a) : e = .unary .negate a := by
  unfold negatedOperand at h
  split at h
  · cases h
    rfl
  · cases h

theorem equationSides_sound {zero : Option Expr} {e lhs rhs : Expr} (hsides : equationSides zero e = some (lhs, rhs))
    (hzero : ∀ z, zero = some z → scalarAt view ops env k z = some 0)
    (he : scalarAt view ops env k e = some 0) :
    ∃ s, scalarAt view ops env k lhs = some s ∧ scalarAt view ops env k rhs = some s := by
  fun_induction equationSides zero e with
  | case1 zero a ih => exact ih hsides hzero (by rwa [scalarAt_plus] at he)
  | case2 zero a ih => exact ih hsides hzero (by simpa using scalarAt_negate he)
  | case3 zero a b ha ih =>
    obtain ⟨x, y, hx, hy, hxy⟩ := scalarAt_add he
    have hx0 := scalarAt_literalZero ha hx
    subst hx0
    refine ih hsides (fun z hz => Option.some.inj hz ▸ hx) ?_
    rw [hy, ← hxy, zero_add]
  | case4 zero a b ha hb ih =>
    obtain ⟨x, y, hx, hy, hxy⟩ := scalarAt_add he
    have hy0 := scalarAt_literalZero hb hy
    subst hy0
    refine ih hsides (fun z hz => Option.some.inj hz ▸ hy) ?_
    rw [hx, ← hxy, add_zero]
  | case5 zero a b _ _ negated hneg =>
    cases hsides
    obtain ⟨x, y, hx, hy, hxy⟩ := scalarAt_add he
    rw [negatedOperand_eq hneg] at hy
    exact ⟨x, hx, by rw [scalarAt_negate hy, eq_neg_of_add_eq_zero_left hxy]⟩
  | case6 zero a b _ _ negated hneg hnone =>
    cases hsides
    obtain ⟨x, y, hx, hy, hxy⟩ := scalarAt_add he
    rw [negatedOperand_eq hneg] at hx
    exact ⟨y, hy, by rw [scalarAt_negate hx, eq_neg_of_add_eq_zero_right hxy]⟩
  | case7 => cases hsides
  | case8 zero a b ha ih =>
    obtain ⟨x, y, hx, hy, hxy⟩ := scalarAt_subtract he
    have hx0 := scalarAt_literalZero ha hx
    subst hx0
    refine ih hsides (fun z hz => Option.some.inj hz ▸ hx) ?_
    rw [hy, neg_eq_zero.1 ((zero_sub y).symm.trans hxy)]
  | case9 zero a b ha hb ih =>
    obtain ⟨x, y, hx, hy, hxy⟩ := scalarAt_subtract he
    have hy0 := scalarAt_literalZero hb hy
    subst hy0
    refine ih hsides (fun z hz => Option.some.inj hz ▸ hy) ?_
    rw [hx, ← hxy, sub_zero]
  | case10 zero a b _ _ =>
    cases hsides
    obtain ⟨x, y, hx, hy, hxy⟩ := scalarAt_subtract he
    exact ⟨x, hx, by rw [hy, sub_eq_zero.1 hxy]⟩
  | case11 zero e =>
    obtain ⟨z, hz, heq⟩ := Option.map_eq_some_iff.1 hsides
    obtain ⟨rfl, rfl⟩ := Prod.mk.inj heq
    exact ⟨0, he, hzero _ hz⟩

end Sound

end Rumoca.DaeTransform
