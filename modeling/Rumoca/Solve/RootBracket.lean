import Mathlib.Algebra.Order.Field.Basic
import Mathlib.Data.Rat.Defs
import Mathlib.Tactic.Linarith
import Mathlib.Tactic.NormNum
import Mathlib.Tactic.Ring
/-!
# Root brackets

A domain change seen between two times is narrowed to the location tolerance. Each
evaluation is at the secant's trial, kept half a tolerance inside the ends and
projected onto a radius around the midpoint; the radius shrinks with a schedule that
halves at every evaluation, so the number of evaluations is known in advance.
-/

namespace Rumoca.Solve

variable {K : Type} [Field K] [LinearOrder K]

-- the literals of the definitions share this proof
local instance atLeastTwo_two : Nat.AtLeastTwo 2 := ⟨le_rfl⟩

inductive BracketEnd where
  | low
  | high
deriving DecidableEq

/-- One domain change being narrowed. The weights are the Illinois weights of the values at the ends. -/
structure RootBracket (K : Type) where
  low : K
  high : K
  tolerance : K
  schedule : K
  evaluationBound : Nat
  lowWeight : K
  highWeight : K
  lastMoved : Option BracketEnd

inductive RootRefinementMethod where
  | illinoisMinmax

structure RootLocationPlan where
  refinementMethod : RootRefinementMethod
  minmaxSlack : Nat

namespace RootBracket

def doublingLimit : Nat := 2100

/-- The doublings of the schedule up to the width, at most `left`. -/
def double (width : K) : (left : Nat) → (schedule : K) → (halvings : Nat) → K × Nat
  | 0, schedule, halvings => (schedule, halvings)
  | left + 1, schedule, halvings =>
    if schedule < width then double width left (schedule * 2) (halvings + 1) else (schedule, halvings)

end RootBracket

def RootBracket.open (low high tolerance : K) (slack : Nat) : RootBracket K :=
  let (schedule, halvings) := RootBracket.double (high - low) RootBracket.doublingLimit tolerance 0
  { low, high, tolerance
    schedule := (List.range slack).foldl (fun schedule _ => schedule * 2) schedule
    evaluationBound := halvings + slack
    lowWeight := 1
    highWeight := 1
    lastMoved := none }

namespace RootBracket

def isLocated (bracket : RootBracket K) : Prop := bracket.high - bracket.low ≤ bracket.tolerance

instance (bracket : RootBracket K) : Decidable bracket.isLocated := inferInstanceAs (Decidable (_ ≤ _))

def crossingFraction (bracket : RootBracket K) (atLow atHigh : K) : K :=
  let low := bracket.lowWeight * |atLow|
  let high := bracket.highWeight * |atHigh|
  let sum := low + high
  if 0 < sum then low / sum else 1 / 2

def trial (bracket : RootBracket K) (leastFraction : K) : Option K :=
  let width := bracket.high - bracket.low
  let middle := bracket.low + 1 / 2 * width
  let secant := min (max (bracket.low + width * leastFraction) (bracket.low + 1 / 2 * bracket.tolerance))
    (bracket.high - 1 / 2 * bracket.tolerance)
  let radius := max (1 / 2 * bracket.schedule - 1 / 2 * width) 0
  let projected :=
    if radius < secant - middle then middle + radius
    else if radius < middle - secant then middle - radius
    else secant
  if bracket.low < projected ∧ projected < bracket.high then some projected
  else if bracket.low < middle ∧ middle < bracket.high then some middle
  else none

def applicationWindow (bracket : RootBracket K) (upper : K) : K := min (bracket.low + bracket.tolerance) upper

def halveRetained (bracket : RootBracket K) (moved : BracketEnd) : RootBracket K :=
  if bracket.lastMoved = some moved then
    match moved with
    | .high => { bracket with lowWeight := bracket.lowWeight * (1 / 2) }
    | .low => { bracket with highWeight := bracket.highWeight * (1 / 2) }
  else bracket

def narrow (bracket : RootBracket K) (trial : K) (entered : Bool) : RootBracket K :=
  let (bracket, moved) :=
    if entered then ({ bracket with high := trial, highWeight := 1 }, BracketEnd.high)
    else ({ bracket with low := trial, lowWeight := 1 }, BracketEnd.low)
  let bracket := bracket.halveRetained moved
  { bracket with lastMoved := some moved, schedule := bracket.schedule * (1 / 2) }

end RootBracket

def RootLocationPlan.openBracket (plan : RootLocationPlan) (low high tolerance : K) : RootBracket K :=
  match plan.refinementMethod with
  | .illinoisMinmax => RootBracket.open low high tolerance plan.minmaxSlack

namespace RootBracket

/-! ## The opened bracket -/

def IsBisectionCount (tolerance width : K) (n : Nat) : Prop :=
  width ≤ tolerance * 2 ^ n ∧ ∀ m < n, tolerance * 2 ^ m < width

theorem double_spec (width tolerance : K) (left halvings : Nat) (hbelow : ∀ m < halvings, tolerance * 2 ^ m < width)
    (hreach : width ≤ tolerance * 2 ^ (halvings + left)) :
    ∃ n, double width left (tolerance * 2 ^ halvings) halvings = (tolerance * 2 ^ n, n) ∧
      IsBisectionCount tolerance width n := by
  induction left generalizing halvings with
  | zero => exact ⟨halvings, rfl, hreach, hbelow⟩
  | succ left ih =>
    unfold double
    split_ifs with hlt
    · rw [mul_assoc, ← pow_succ]
      refine ih (halvings + 1) (fun m hm => ?_) (by rwa [Nat.add_right_comm, Nat.add_assoc])
      rcases Nat.lt_succ_iff_lt_or_eq.1 hm with hm | rfl
      · exact hbelow m hm
      · exact hlt
    · exact ⟨halvings, rfl, not_lt.1 hlt, hbelow⟩

omit [LinearOrder K] in
theorem slack_foldl (schedule : K) (slack : Nat) :
    (List.range slack).foldl (fun schedule _ => schedule * 2) schedule = schedule * 2 ^ slack := by
  induction slack with
  | zero => simp
  | succ slack ih => rw [List.range_succ, List.foldl_append, ih, List.foldl_cons, List.foldl_nil, pow_succ, mul_assoc]

theorem open_spec {low high tolerance : K} (slack : Nat) (hwidth : high - low ≤ tolerance * 2 ^ doublingLimit) :
    ∃ n, IsBisectionCount tolerance (high - low) n ∧ RootBracket.open low high tolerance slack =
      ⟨low, high, tolerance, tolerance * 2 ^ (n + slack), n + slack, 1, 1, none⟩ := by
  obtain ⟨n, hdouble, hcount⟩ := double_spec (high - low) tolerance doublingLimit 0 (by simp) (by simpa using hwidth)
  rw [pow_zero, mul_one] at hdouble
  refine ⟨n, hcount, ?_⟩
  unfold RootBracket.open
  rw [hdouble]
  dsimp only
  rw [slack_foldl, mul_assoc, ← pow_add]

/-! ## A trial and its answer -/

omit [LinearOrder K] in
theorem narrow_eq (bracket : RootBracket K) (x : K) (entered : Bool) :
    (bracket.narrow x entered).low = (if entered then bracket.low else x) ∧
      (bracket.narrow x entered).high = (if entered then x else bracket.high) ∧
      (bracket.narrow x entered).tolerance = bracket.tolerance ∧
      (bracket.narrow x entered).schedule = bracket.schedule * (1 / 2) ∧
      (bracket.narrow x entered).evaluationBound = bracket.evaluationBound := by
  cases entered <;> simp only [narrow, halveRetained, Bool.false_eq_true, if_true, if_false] <;> split_ifs <;>
    exact ⟨rfl, rfl, rfl, rfl, rfl⟩

variable [IsStrictOrderedRing K]

/-- The trial of a bracket wider than the tolerance lies inside, within the radius of the midpoint. -/
theorem trial_spec {bracket : RootBracket K} (htolerance : 0 < bracket.tolerance) (hlocated : ¬bracket.isLocated)
    (hschedule : bracket.high - bracket.low ≤ bracket.schedule) (leastFraction : K) :
    ∃ x, bracket.trial leastFraction = some x ∧ bracket.low < x ∧ x < bracket.high ∧
      bracket.high - x ≤ bracket.schedule * (1 / 2) ∧ x - bracket.low ≤ bracket.schedule * (1 / 2) := by
  have hwide : bracket.tolerance < bracket.high - bracket.low := not_le.1 hlocated
  have hradius : max (1 / 2 * bracket.schedule - 1 / 2 * (bracket.high - bracket.low)) 0 =
      1 / 2 * bracket.schedule - 1 / 2 * (bracket.high - bracket.low) := max_eq_left (by linarith)
  have hinside : ∀ x, bracket.low + 1 / 2 * bracket.tolerance ≤ x → x ≤ bracket.high - 1 / 2 * bracket.tolerance →
      bracket.low < x ∧ x < bracket.high := fun x hlow hhigh => ⟨by linarith, by linarith⟩
  unfold trial
  dsimp only
  rw [hradius]
  generalize hsecant : min (max (bracket.low + (bracket.high - bracket.low) * leastFraction)
    (bracket.low + 1 / 2 * bracket.tolerance)) (bracket.high - 1 / 2 * bracket.tolerance) = secant
  have hlow : bracket.low + 1 / 2 * bracket.tolerance ≤ secant :=
    hsecant ▸ le_min (le_max_right _ _) (by linarith)
  have hhigh : secant ≤ bracket.high - 1 / 2 * bracket.tolerance := hsecant ▸ min_le_right _ _
  split_ifs with hright hin hmiddle hleft hin hmiddle hin hmiddle
  all_goals first
    | exact ⟨_, rfl, hin.1, hin.2, by linarith, by linarith⟩
    | exact absurd (hinside _ (by linarith) (by linarith)) hin

theorem narrow_weights {bracket : RootBracket K} (hlow : 0 ≤ bracket.lowWeight) (hhigh : 0 ≤ bracket.highWeight) (x : K)
    (entered : Bool) : 0 ≤ (bracket.narrow x entered).lowWeight ∧ 0 ≤ (bracket.narrow x entered).highWeight := by
  have hhalf : ∀ w : K, 0 ≤ w → 0 ≤ w * (1 / 2) := fun w hw => mul_nonneg hw (by norm_num)
  cases entered <;> simp only [narrow, halveRetained, Bool.false_eq_true, if_true, if_false] <;> split_ifs
  · exact ⟨zero_le_one, hhalf _ hhigh⟩
  · exact ⟨zero_le_one, hhigh⟩
  · exact ⟨hhalf _ hlow, zero_le_one⟩
  · exact ⟨hlow, zero_le_one⟩

/-! ## Runs -/

/-- A run of the refinement from a bracket: the trials with their answers, while the bracket is not located. -/
inductive Refines (start : RootBracket K) : List (K × Bool) → RootBracket K → Prop
  | opened : Refines start [] start
  | step {log : List (K × Bool)} {bracket : RootBracket K} {leastFraction x : K} (entered : Bool)
    (run : Refines start log bracket) (unlocated : ¬bracket.isLocated) (nonneg : 0 ≤ leastFraction)
    (le_one : leastFraction ≤ 1) (tried : bracket.trial leastFraction = some x) :
    Refines start (log ++ [(x, entered)]) (bracket.narrow x entered)

/-- The answers so far and the bracket: each end was given or answered so, and no answer lies inside. -/
structure Ends (low high : K) (log : List (K × Bool)) (bracket : RootBracket K) : Prop where
  lt : bracket.low < bracket.high
  low : bracket.low = low ∨ (bracket.low, false) ∈ log
  high : bracket.high = high ∨ (bracket.high, true) ∈ log
  before : ∀ x, (x, false) ∈ log → x ≤ bracket.low
  after : ∀ x, (x, true) ∈ log → bracket.high ≤ x

omit [IsStrictOrderedRing K] in
theorem Ends.narrow {low high : K} {log : List (K × Bool)} {bracket : RootBracket K} (h : Ends low high log bracket)
    {x : K} (hlow : bracket.low < x) (hhigh : x < bracket.high) (entered : Bool) :
    Ends low high (log ++ [(x, entered)]) (bracket.narrow x entered) := by
  obtain ⟨hlowEq, hhighEq, -⟩ := narrow_eq bracket x entered
  have hold : ∀ e, e ∈ log → e ∈ log ++ [(x, entered)] := fun e he => List.mem_append_left _ he
  have hnew : (x, entered) ∈ log ++ [(x, entered)] := by simp
  have hmem : ∀ y answer, (y, answer) ∈ log ++ [(x, entered)] → (y, answer) ∈ log ∨ y = x ∧ answer = entered := by
    intro y answer hy
    simpa using hy
  cases entered with
  | true =>
    simp only [if_true] at hlowEq hhighEq
    refine ⟨by rw [hlowEq, hhighEq]; exact hlow, ?_, ?_, fun y hy => ?_, fun y hy => ?_⟩
    · rw [hlowEq]
      exact h.low.imp id (hold _)
    · rw [hhighEq]
      exact .inr hnew
    · rw [hlowEq]
      rcases hmem y false hy with hy | ⟨-, hanswer⟩
      · exact h.before y hy
      · cases hanswer
    · rw [hhighEq]
      rcases hmem y true hy with hy | ⟨rfl, -⟩
      · exact hhigh.le.trans (h.after y hy)
      · exact le_refl _
  | false =>
    simp only [Bool.false_eq_true, if_false] at hlowEq hhighEq
    refine ⟨by rw [hlowEq, hhighEq]; exact hhigh, ?_, ?_, fun y hy => ?_, fun y hy => ?_⟩
    · rw [hlowEq]
      exact .inr hnew
    · rw [hhighEq]
      exact h.high.imp id (hold _)
    · rw [hlowEq]
      rcases hmem y false hy with hy | ⟨rfl, -⟩
      · exact (h.before y hy).trans hlow.le
      · exact le_refl _
    · rw [hhighEq]
      rcases hmem y true hy with hy | ⟨-, hanswer⟩
      · exact h.after y hy
      · cases hanswer

/-- What every run keeps: the schedule after the evaluations so far, the width within it, and the ends. -/
structure Kept (low high location : K) (evaluations : Nat) (log : List (K × Bool)) (bracket : RootBracket K) : Prop where
  tolerance : bracket.tolerance = location
  bound : bracket.evaluationBound = evaluations
  length : log.length ≤ evaluations
  schedule : bracket.schedule = location * 2 ^ (evaluations - log.length)
  width : bracket.high - bracket.low ≤ bracket.schedule
  ends : Ends low high log bracket
  weights : 0 ≤ bracket.lowWeight ∧ 0 ≤ bracket.highWeight

theorem Kept.step {low high tolerance : K} {bound : Nat} {log : List (K × Bool)} {bracket : RootBracket K}
    (h : Kept low high tolerance bound log bracket) (htolerance : 0 < tolerance) (hlocated : ¬bracket.isLocated)
    {leastFraction x : K} (htried : bracket.trial leastFraction = some x) (entered : Bool) :
    Kept low high tolerance bound (log ++ [(x, entered)]) (bracket.narrow x entered) := by
  obtain ⟨y, hy, hlow, hhigh, hright, hleft⟩ :=
    trial_spec (h.tolerance ▸ htolerance) hlocated h.width leastFraction
  obtain rfl : y = x := Option.some.inj (hy.symm.trans htried)
  obtain ⟨hlowEq, hhighEq, htol, hschedule, hbound⟩ := narrow_eq bracket y entered
  have hmore : log.length + 1 ≤ bound := by
    by_contra hfull
    have hzero : bound - log.length = 0 := by omega
    have hwidth := h.width
    rw [h.schedule, hzero, pow_zero, mul_one, ← h.tolerance] at hwidth
    exact hlocated hwidth
  have hlength : (log ++ [(y, entered)]).length = log.length + 1 := by simp
  refine ⟨htol.trans h.tolerance, hbound.trans h.bound, hlength.trans_le hmore, ?_, ?_, h.ends.narrow hlow hhigh entered,
    narrow_weights h.weights.1 h.weights.2 y entered⟩
  · have hsplit : bound - log.length = bound - (log.length + 1) + 1 := by omega
    rw [hschedule, h.schedule, hlength, hsplit, pow_succ, mul_assoc, mul_assoc, mul_one_div_cancel (by norm_num), mul_one]
  · rw [hlowEq, hhighEq, hschedule]
    cases entered
    · exact hright
    · exact hleft

theorem Kept.of_run {low high tolerance : K} {slack : Nat} (hlt : low < high) (htolerance : 0 < tolerance)
    (hwidth : high - low ≤ tolerance * 2 ^ doublingLimit) {log : List (K × Bool)} {bracket : RootBracket K}
    (run : Refines (RootBracket.open low high tolerance slack) log bracket) :
    Kept low high tolerance (RootBracket.open low high tolerance slack).evaluationBound log bracket := by
  induction run with
  | opened =>
    obtain ⟨n, hcount, hopen⟩ := open_spec slack hwidth
    rw [hopen]
    have hgrow : tolerance * 2 ^ n ≤ tolerance * 2 ^ (n + slack) :=
      mul_le_mul_of_nonneg_left (pow_le_pow_right₀ (by norm_num) (Nat.le_add_right _ _)) htolerance.le
    exact ⟨rfl, rfl, Nat.zero_le _, rfl, hcount.1.trans hgrow,
      ⟨hlt, .inl rfl, .inl rfl, fun _ h => absurd h List.not_mem_nil, fun _ h => absurd h List.not_mem_nil⟩,
      zero_le_one, zero_le_one⟩
  | step entered _ unlocated _ _ tried ih => exact ih.step htolerance unlocated tried entered

/-- Every run of a plan's refinement stays within its schedule, goes on until it is located within the evaluation bound,
keeps its ends, and then the application window lies within a tolerance past the crossing. -/
theorem refinement (plan : RootLocationPlan) (low high tolerance : K) (hlt : low < high) (htolerance : 0 < tolerance)
    (hwidth : high - low ≤ tolerance * 2 ^ doublingLimit) (log : List (K × Bool)) (bracket : RootBracket K)
    (run : Refines (plan.openBracket low high tolerance) log bracket) :
    bracket.high - bracket.low ≤ bracket.schedule ∧
      (¬bracket.isLocated → ∀ leastFraction, 0 ≤ leastFraction → leastFraction ≤ 1 →
        ∃ x, bracket.trial leastFraction = some x ∧ bracket.low < x ∧ x < bracket.high) ∧
      log.length ≤ (plan.openBracket low high tolerance).evaluationBound ∧
      (log.length = (plan.openBracket low high tolerance).evaluationBound → bracket.isLocated) ∧
      ((bracket.low = low ∨ (bracket.low, false) ∈ log) ∧ (bracket.low, true) ∉ log) ∧
      ((bracket.high = high ∨ (bracket.high, true) ∈ log) ∧ (bracket.high, false) ∉ log) ∧
      (bracket.isLocated → ∀ upper, bracket.high ≤ upper →
        bracket.high ≤ bracket.applicationWindow upper ∧ bracket.applicationWindow upper ≤ bracket.low + tolerance) := by
  have h : Kept low high tolerance (plan.openBracket low high tolerance).evaluationBound log bracket :=
    Kept.of_run hlt htolerance hwidth run
  refine ⟨h.width, fun hlocated leastFraction _ _ => ?_, h.length, fun hfull => ?_, ⟨h.ends.low, fun hlow => ?_⟩,
    ⟨h.ends.high, fun hhigh => ?_⟩, fun hlocated upper hupper => ?_⟩
  · obtain ⟨x, htried, hlow, hhigh, -⟩ := trial_spec (h.tolerance ▸ htolerance) hlocated h.width leastFraction
    exact ⟨x, htried, hlow, hhigh⟩
  · have hwithin := h.width
    rw [h.schedule, hfull, Nat.sub_self, pow_zero, mul_one, ← h.tolerance] at hwithin
    exact hwithin
  · exact absurd (h.ends.after _ hlow) (not_le.2 h.ends.lt)
  · exact absurd (h.ends.before _ hhigh) (not_le.2 h.ends.lt)
  · unfold isLocated at hlocated
    rw [h.tolerance] at hlocated
    unfold applicationWindow
    rw [h.tolerance]
    exact ⟨le_min (by linarith) hupper, min_le_left _ _⟩

/-- A bracket of width one narrowed once to a tolerance of a half. -/
theorem refinement_unit : ((RootLocationPlan.mk .illinoisMinmax 0).openBracket (0 : Rat) 1 (1 / 2)).narrow (1 / 2) true
    |>.isLocated := by
  have run : Refines ((RootLocationPlan.mk .illinoisMinmax 0).openBracket (0 : Rat) 1 (1 / 2)) ([] ++ [(1 / 2, true)]) _ :=
    .step true .opened (by decide +kernel) (by norm_num : (0 : Rat) ≤ 1 / 2) (by norm_num) (by decide +kernel)
  have hreach : (1 : Rat) - 0 ≤ 1 / 2 * 2 ^ (2099 + 1) := by
    have hone : (1 : Rat) ≤ 2 ^ 2099 := one_le_pow₀ (by norm_num)
    rw [pow_succ]
    generalize (2 : Rat) ^ 2099 = power at hone ⊢
    linarith
  exact (refinement _ 0 1 (1 / 2) (by norm_num) (by norm_num) hreach _ _ run).2.2.2.1
    (by decide +kernel)

end RootBracket

end Rumoca.Solve
