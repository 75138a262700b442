import Rumoca.Solve.IntegerInterval
/-!
# Integer division

The quotient, remainder and modulo of two `i64` values in two forms: the
builtins of the constant evaluators, and the scalar fold of typed programs.
The fold's remainder and modulo go through the checked remainder, which
refuses the least dividend with divisor minus one although both are zero.
-/

namespace Rumoca.Solve

/-! ## The builtins -/

def evalIntegerDivBuiltin (lhs rhs : Int) : Option Int := checkedDiv lhs rhs

def evalIntegerModBuiltin (lhs rhs : Int) : Option Int :=
  if rhs = -1 then some 0
  else do
    let rem ← checkedRem lhs rhs
    if rem ≠ 0 ∧ (rem < 0 ↔ ¬rhs < 0) then checkedI64 (rem + rhs) else some rem

def evalIntegerRemBuiltin (lhs rhs : Int) : Option Int := if rhs = -1 then some 0 else checkedRem lhs rhs

/-! ## Exact results -/

/-- `lhs - floor(lhs / rhs) * rhs`. -/
def flooredModulo (lhs rhs : Int) : Int := lhs - lhs.fdiv rhs * rhs

/-- `lhs - truncate(lhs / rhs) * rhs`. -/
def truncatedRemainder (lhs rhs : Int) : Int := lhs - lhs.tdiv rhs * rhs

/-- The answer is the exact result, and none exactly for a zero divisor or a result outside `i64`. -/
structure Answers (answer : Option Int) (rhs exact : Int) : Prop where
  value : ∀ v, answer = some v → v = exact
  none_iff : answer = none ↔ rhs = 0 ∨ ¬IsI64 exact

def HasResult (domain : SolveIntegerDomain) (rhs exact : Int) : Prop := rhs ≠ 0 → IsI64 exact → domain.contains exact

/-- The two forms agree on a pair of operands, and answer the exact results. -/
structure DivisionsAgree (lhs rhs : Int) : Prop where
  quotient : ∀ domain, HasResult domain rhs (lhs.tdiv rhs) →
    foldScalarBinary (.integer domain) .integerQuotient (lhs, rhs) = evalIntegerDivBuiltin lhs rhs
  remainder : ∀ domain, HasResult domain rhs (truncatedRemainder lhs rhs) →
    foldScalarBinary (.integer domain) .integerRemainder (lhs, rhs) = evalIntegerRemBuiltin lhs rhs
  modulo : ∀ domain, HasResult domain rhs (flooredModulo lhs rhs) →
    foldScalarBinary (.integer domain) .integerModulo (lhs, rhs) = evalIntegerModBuiltin lhs rhs
  exactQuotient : Answers (evalIntegerDivBuiltin lhs rhs) rhs (lhs.tdiv rhs)
  exactRemainder : Answers (evalIntegerRemBuiltin lhs rhs) rhs (truncatedRemainder lhs rhs)
  exactModulo : Answers (evalIntegerModBuiltin lhs rhs) rhs (flooredModulo lhs rhs)

theorem answers_ite {rhs exact : Int} {answer : Option Int}
    (h : answer = if rhs = 0 ∨ ¬IsI64 exact then none else some exact) : Answers answer rhs exact := by
  subst h
  split_ifs with hnone
  · exact ⟨fun v hv => (nomatch hv), iff_of_true rfl hnone⟩
  · exact ⟨fun v hv => (Option.some.inj hv).symm, iff_of_false (nomatch ·) hnone⟩

section
variable {lhs rhs : Int}

theorem isI64_tdiv (hl : IsI64 lhs) (hne : rhs ≠ 0) (hmin : ¬(lhs = -i64Limit ∧ rhs = -1)) : IsI64 (lhs.tdiv rhs) := by
  have habs : (lhs.tdiv rhs).natAbs ≤ lhs.natAbs := Int.natAbs_tdiv_le_natAbs lhs rhs
  unfold IsI64 at *
  by_cases hlow : lhs = -i64Limit
  · have hrhs : rhs ≠ -1 := fun h => hmin ⟨hlow, h⟩
    by_cases hone : rhs = 1
    · rw [hone, Int.tdiv_one]
      exact hl
    · -- the divisor has magnitude two at least
      have htwo : (lhs.tdiv rhs).natAbs ≤ lhs.natAbs / 2 := by
        rw [Int.natAbs_tdiv]
        exact Nat.div_le_div_left (by omega) Nat.two_pos
      unfold i64Limit at *
      omega
  · unfold i64Limit at *
    omega

theorem truncatedRemainder_eq (lhs rhs : Int) : truncatedRemainder lhs rhs = lhs.tmod rhs := by
  rw [truncatedRemainder, Int.tmod_def, Int.mul_comm]

theorem flooredModulo_eq (lhs rhs : Int) : flooredModulo lhs rhs = lhs.fmod rhs := by
  rw [flooredModulo, Int.fmod_def, Int.mul_comm]

theorem isI64_tmod (hr : IsI64 rhs) (hne : rhs ≠ 0) : IsI64 (lhs.tmod rhs) := by
  have habs : (lhs.tmod rhs).natAbs < rhs.natAbs := by
    rw [Int.natAbs_tmod]
    exact Nat.mod_lt _ (Int.natAbs_pos.2 hne)
  unfold IsI64 i64Limit at *
  omega

/-- The floored modulo is the truncated remainder, corrected by the divisor where their signs differ. -/
theorem fmod_eq_tmod (lhs : Int) (hne : rhs ≠ 0) : lhs.fmod rhs =
    if lhs.tmod rhs ≠ 0 ∧ (lhs.tmod rhs < 0 ↔ ¬rhs < 0) then lhs.tmod rhs + rhs else lhs.tmod rhs := by
  have hlow := Int.emod_nonneg lhs hne
  have hhigh := Int.emod_lt lhs hne
  rw [Int.fmod_eq_emod, Int.tmod_eq_emod]
  by_cases hdvd : rhs ∣ lhs
  · simp [hdvd, Int.emod_eq_zero_of_dvd hdvd]
  · have hpos : lhs % rhs ≠ 0 := fun h => hdvd (Int.dvd_of_emod_eq_zero h)
    simp only [hdvd, or_false]
    split_ifs <;> omega

theorem isI64_fmod (hr : IsI64 rhs) (hne : rhs ≠ 0) : IsI64 (lhs.fmod rhs) := by
  have hlow := Int.emod_nonneg lhs hne
  have hhigh := Int.emod_lt lhs hne
  rw [Int.fmod_eq_emod]
  unfold IsI64 i64Limit at *
  split_ifs with hdvd
  · omega
  · omega

/-! ## The forms agree -/

theorem checkedDiv_eq (lhs rhs : Int) :
    checkedDiv lhs rhs = if rhs = 0 ∨ ¬IsI64 (lhs.tdiv rhs) then none else some (lhs.tdiv rhs) := by
  unfold checkedDiv checkedI64 IsI64
  by_cases hzero : rhs = 0
  · simp [hzero]
  · simp only [hzero, if_false, false_or, ite_not]

theorem checkedRem_eq (h : rhs ≠ 0 → IsI64 (lhs.tdiv rhs)) :
    checkedRem lhs rhs = if rhs = 0 then none else some (lhs.tmod rhs) := by
  unfold checkedRem
  rw [checkedDiv_eq]
  by_cases hzero : rhs = 0
  · simp [hzero]
  · simp [hzero, h hzero]

theorem inDomain_bind {domain : SolveIntegerDomain} {answer : Option Int} {exact : Int}
    (hanswer : Answers answer rhs exact) (hresult : HasResult domain rhs exact) :
    (answer >>= inDomain (.integer domain)) = answer := by
  cases hvalue : answer with
  | none => rfl
  | some value =>
    obtain rfl := hanswer.value value hvalue
    have hsome : ¬(rhs = 0 ∨ ¬IsI64 value) := fun h => by
      rw [hanswer.none_iff.2 h] at hvalue
      cases hvalue
    rw [not_or, not_not] at hsome
    exact if_pos (hresult hsome.1 hsome.2)

theorem answers_div : Answers (evalIntegerDivBuiltin lhs rhs) rhs (lhs.tdiv rhs) := answers_ite (checkedDiv_eq lhs rhs)

theorem tdiv_isI64_of_ne (hl : IsI64 lhs) (hone : rhs ≠ -1) (hne : rhs ≠ 0) : IsI64 (lhs.tdiv rhs) :=
  isI64_tdiv hl hne fun h => hone h.2

theorem tmod_neg_one (lhs : Int) : lhs.tmod (-1) = 0 := by rw [Int.tmod_neg, Int.tmod_one]

theorem checkedRem_builtin (hl : IsI64 lhs) (hmin : ¬(lhs = -i64Limit ∧ rhs = -1)) :
    checkedRem lhs rhs = evalIntegerRemBuiltin lhs rhs := by
  unfold evalIntegerRemBuiltin
  split_ifs with hone
  · rw [checkedRem_eq fun hne => isI64_tdiv hl hne hmin, hone, tmod_neg_one]
    rfl
  · rfl

theorem answers_rem (hl : IsI64 lhs) (hr : IsI64 rhs) :
    Answers (evalIntegerRemBuiltin lhs rhs) rhs (truncatedRemainder lhs rhs) := by
  refine answers_ite ?_
  rw [truncatedRemainder_eq]
  unfold evalIntegerRemBuiltin
  by_cases hone : rhs = -1
  · rw [if_pos hone, hone, tmod_neg_one]
    rfl
  · rw [if_neg hone, checkedRem_eq (tdiv_isI64_of_ne hl hone)]
    by_cases hzero : rhs = 0
    · simp [hzero]
    · simp [hzero, isI64_tmod hr hzero]

theorem correct_eq (hr : IsI64 rhs) (hne : rhs ≠ 0) :
    (if lhs.tmod rhs ≠ 0 ∧ (lhs.tmod rhs < 0 ↔ ¬rhs < 0) then checkedI64 (lhs.tmod rhs + rhs)
      else some (lhs.tmod rhs)) = some (lhs.fmod rhs) := by
  have hexact := fmod_eq_tmod lhs hne
  split_ifs with hsigns
  · rw [if_pos hsigns] at hexact
    rw [← hexact]
    exact checkedI64_eq_some.2 ⟨rfl, isI64_fmod hr hne⟩
  · rw [if_neg hsigns] at hexact
    rw [hexact]

theorem fmod_neg_one (lhs : Int) : lhs.fmod (-1) = 0 := by
  rw [fmod_eq_tmod lhs (by decide), tmod_neg_one]
  rfl

theorem answers_mod (hl : IsI64 lhs) (hr : IsI64 rhs) :
    Answers (evalIntegerModBuiltin lhs rhs) rhs (flooredModulo lhs rhs) := by
  refine answers_ite ?_
  rw [flooredModulo_eq]
  unfold evalIntegerModBuiltin
  by_cases hone : rhs = -1
  · rw [if_pos hone, hone, fmod_neg_one]
    rfl
  · rw [if_neg hone, checkedRem_eq (tdiv_isI64_of_ne hl hone)]
    by_cases hzero : rhs = 0
    · simp [hzero]
    · rw [if_neg hzero, if_neg (by simp [hzero, isI64_fmod hr hzero])]
      exact correct_eq hr hzero

section
variable {domain : SolveIntegerDomain}

theorem fold_quotient (hresult : HasResult domain rhs (lhs.tdiv rhs)) :
    foldScalarBinary (.integer domain) .integerQuotient (lhs, rhs) = evalIntegerDivBuiltin lhs rhs :=
  inDomain_bind answers_div hresult

theorem fold_remainder (hl : IsI64 lhs) (hr : IsI64 rhs) (hmin : ¬(lhs = -i64Limit ∧ rhs = -1))
    (hresult : HasResult domain rhs (truncatedRemainder lhs rhs)) :
    foldScalarBinary (.integer domain) .integerRemainder (lhs, rhs) = evalIntegerRemBuiltin lhs rhs := by
  show (checkedRem lhs rhs >>= inDomain (.integer domain)) = _
  rw [checkedRem_builtin hl hmin]
  exact inDomain_bind (answers_rem hl hr) hresult

theorem fold_modulo (hl : IsI64 lhs) (hr : IsI64 rhs) (hmin : ¬(lhs = -i64Limit ∧ rhs = -1))
    (hresult : HasResult domain rhs (flooredModulo lhs rhs)) :
    foldScalarBinary (.integer domain) .integerModulo (lhs, rhs) = evalIntegerModBuiltin lhs rhs := by
  rw [← inDomain_bind (answers_mod hl hr) hresult]
  unfold foldScalarBinary evalIntegerModBuiltin
  dsimp only
  rw [checkedRem_eq fun hne => isI64_tdiv hl hne hmin]
  by_cases hzero : rhs = 0
  · simp [hzero]
  · rw [if_neg hzero]
    simp only [Option.bind_eq_bind, Option.bind_some]
    split_ifs with hsigns hone hone
    · rw [hone, tmod_neg_one] at hsigns
      exact absurd rfl hsigns.1
    · rfl
    · rw [hone, tmod_neg_one]
      rfl
    · rfl

end

theorem not_divisionsAgree_min : ¬DivisionsAgree (-i64Limit) (-1) := by
  intro h
  have hfull : HasResult .full (-1) (truncatedRemainder (-i64Limit) (-1)) := by
    rintro - -
    decide
  have hrem := h.remainder .full hfull
  have hfold : foldScalarBinary (.integer .full) .integerRemainder (-i64Limit, -1) = none := by decide
  rw [hfold] at hrem
  cases hrem

/-- The fold and the builtins agree and are exact on two `i64` values other than the least one and minus one. -/
theorem divisionsAgree_iff (hl : IsI64 lhs) (hr : IsI64 rhs) :
    DivisionsAgree lhs rhs ↔ ¬(lhs = -i64Limit ∧ rhs = -1) := by
  constructor
  · rintro h ⟨rfl, rfl⟩
    exact not_divisionsAgree_min h
  · intro hmin
    exact {
      quotient := fun domain => fold_quotient
      remainder := fun domain => fold_remainder hl hr hmin
      modulo := fun domain => fold_modulo hl hr hmin
      exactQuotient := answers_div
      exactRemainder := answers_rem hl hr
      exactModulo := answers_mod hl hr }

theorem divisionsAgree_neg_seven : DivisionsAgree (-7) 3 := (divisionsAgree_iff (by decide) (by decide)).2 (by decide)

/-- Two `i64` values on which the fold and the builtins differ. -/
theorem divisions_disagree : ¬∀ lhs rhs : Int, IsI64 lhs → IsI64 rhs → DivisionsAgree lhs rhs :=
  fun h => not_divisionsAgree_min (h _ _ (by decide) (by decide))

end

end Rumoca.Solve
