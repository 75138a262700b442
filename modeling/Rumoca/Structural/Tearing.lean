import Rumoca.Machine
import Rumoca.Lib.Loop
/-!
# Tearing an algebraic loop

Greedy tearing of a loop of `n` equations over `n` unknowns, both by local
index: solve what has one unknown left, else tear the unknown of the highest
score. A hash set is the list of its members; no result depends on their
order. The two `while` loops end because every turn removes an unknown.
-/

namespace Rumoca.Structural

open Rumoca.Lib

structure TearingResult where
  tearVarLocalIndices : List Nat
  residualEqLocalIndices : List Nat
  causalSequence : List (Nat × Nat)
deriving DecidableEq, Repr

/-- The unknowns of `equation` that are not yet solved or torn. -/
def liveUnknowns (equationUnknowns : List (List Nat)) (remaining : List Nat) (equation : Nat) : List Nat :=
  ((equationUnknowns[equation]?).getD []).filter (· ∈ remaining)

def uniqueLiveCausalCandidate (equation : Nat) (remaining : List Nat)
    (equationUnknowns causalCandidates : List (List Nat)) : Option Nat :=
  match liveUnknowns equationUnknowns remaining equation with
  | [var] => if var ∈ (causalCandidates[equation]?).getD [] then some var else none
  | _ => none

structure TearState where
  remainingEqs : List Nat
  remainingUnknowns : List Nat
  causalSequence : List (Nat × Nat)

def bestEquation (equationUnknowns : List (List Nat)) (candidates : List Nat) : Option Nat :=
  let total (eq : Nat) : Nat := ((equationUnknowns[eq]?).getD []).length
  candidates.foldl (fun best eq =>
    match best with
    | none => some eq
    | some b => if total eq < total b ∨ (total eq = total b ∧ eq < b) then some eq else some b) none

/-- Solve `var` by the best of its candidate equations. -/
def solveVariable (equationUnknowns : List (List Nat)) (varToEqs : List (Nat × Nat)) (st : TearState × Bool)
    (var : Nat) : TearState × Bool :=
  if var ∈ st.1.remainingUnknowns then
    match bestEquation equationUnknowns ((varToEqs.filter (·.1 = var)).map (·.2)) with
    | none => st
    | some eq =>
      ({ remainingEqs := st.1.remainingEqs.erase eq
         remainingUnknowns := st.1.remainingUnknowns.erase var
         causalSequence := st.1.causalSequence ++ [(eq, var)] }, true)
  else st

/-- One pass over the variables some equation can solve, and whether it solved any. -/
def resolvePass (equationUnknowns causalCandidates : List (List Nat)) (st : TearState) : TearState × Bool :=
  let varToEqs := st.remainingEqs.filterMap fun eq =>
    (uniqueLiveCausalCandidate eq st.remainingUnknowns equationUnknowns causalCandidates).map (·, eq)
  (sortDedup (varToEqs.map (·.1))).foldl (solveVariable equationUnknowns varToEqs) (st, false)

/-- One turn of `while changed` in `resolve_causal_equations`. -/
def resolveStep (equationUnknowns causalCandidates : List (List Nat)) (st : TearState) :
    Option (Ctl TearState TearState) :=
  let pass := resolvePass equationUnknowns causalCandidates st
  some (if pass.2 then .next pass.1 else .done pass.1)

def resolveCausalEquations (equationUnknowns causalCandidates : List (List Nat)) (st : TearState) :
    Option TearState :=
  loop (resolveStep equationUnknowns causalCandidates) (st.remainingUnknowns.length + 1) st

/-- How many remaining equations reference `var`. -/
def countVarAppearances (remainingEqs : List Nat) (equationUnknowns : List (List Nat)) (var : Nat) : Nat :=
  remainingEqs.countP fun eq => var ∈ (equationUnknowns[eq]?).getD []

/-- The remaining equations that tearing a variable leaves with one live
unknown they can solve: `lone` of them already have one, `loneOn v` of these
lose `v` itself, and `paired v` have two, `v` and one they can solve. -/
structure UnlockCounts where
  lone : Nat
  loneOn : Nat → Nat
  paired : Nat → Nat

namespace UnlockCounts

def countPair (unlocks : UnlockCounts) (candidates : List Nat) (first second : Nat) : UnlockCounts :=
  let bump (counts : Nat → Nat) (v : Nat) : Nat → Nat := Function.update counts v (counts v + 1)
  let paired := if second ∈ candidates then bump unlocks.paired first else unlocks.paired
  let paired := if first ∈ candidates then bump paired second else paired
  { unlocks with paired := paired }

def count (remainingEqs remaining : List Nat) (equationUnknowns causalCandidates : List (List Nat)) :
    UnlockCounts :=
  remainingEqs.foldl (fun unlocks eq =>
    let candidates := (causalCandidates[eq]?).getD []
    match liveUnknowns equationUnknowns remaining eq with
    | [first] =>
      if first ∈ candidates then
        { unlocks with
          lone := unlocks.lone + 1
          loneOn := Function.update unlocks.loneOn first (unlocks.loneOn first + 1) }
      else unlocks
    | [first, second] => unlocks.countPair candidates first second
    | _ => unlocks) ⟨0, fun _ => 0, fun _ => 0⟩

def forTear (unlocks : UnlockCounts) (tearVar : Nat) : Nat :=
  unlocks.lone - unlocks.loneOn tearVar + unlocks.paired tearVar

end UnlockCounts

inductive TearPriority where
  | CausalUnlocks
  | VariableDegree
deriving DecidableEq, Repr

/-- Scores compare by their parts in order; among equal ones the lower variable wins. -/
def TearPriority.score (priority : TearPriority) (unlocked degree : Nat) : Nat × Nat :=
  match priority with
  | .CausalUnlocks => (unlocked, degree)
  | .VariableDegree => (degree, unlocked)

/-- The variable of the highest score, of the ascending `vars`. -/
def bestTear (score : Nat → Nat × Nat) (vars : List Nat) : Option Nat :=
  vars.foldl (fun best var =>
    match best with
    | none => some var
    | some b =>
      if (score b).1 < (score var).1 ∨ ((score b).1 = (score var).1 ∧ (score b).2 < (score var).2) then some var
      else some b) none

/-- One turn of the loop of `tear_with_priority`. -/
def tearStep (equationUnknowns causalCandidates : List (List Nat)) (priority : TearPriority)
    (s : TearState × List Nat) : Option (Ctl (TearState × List Nat) (TearState × List Nat)) := do
  let st ← resolveCausalEquations equationUnknowns causalCandidates s.1
  if st.remainingEqs = [] then pure (.done (st, s.2))
  else
    let degree := countVarAppearances st.remainingEqs equationUnknowns
    let unlocks := UnlockCounts.count st.remainingEqs st.remainingUnknowns equationUnknowns causalCandidates
    match bestTear (fun v => priority.score (unlocks.forTear v) (degree v))
        (st.remainingUnknowns.filter fun v => 0 < degree v) with
    | none => pure (.done (st, s.2))
    | some tearVar =>
      pure (.next ({ st with remainingUnknowns := st.remainingUnknowns.erase tearVar }, s.2 ++ [tearVar]))

def tearWithPriority (n : Nat) (equationUnknowns causalCandidates : List (List Nat)) (priority : TearPriority) :
    Option (Option TearingResult) := do
  let (st, tearVars) ← loop (tearStep equationUnknowns causalCandidates priority) (n + 1)
    (⟨List.range n, List.range n, []⟩, [])
  let residualEqs := st.remainingEqs
  if tearVars = [] ∨ tearVars.length ≥ n then pure none
  else if residualEqs.length ≠ tearVars.length then pure none
  else pure (some ⟨tearVars, residualEqs, st.causalSequence⟩)

def tearAlgebraicLoopWithCausalCandidates (n : Nat) (equationUnknowns causalCandidates : List (List Nat)) :
    Option (Option TearingResult) := do
  if n = 0 then pure none
  else if equationUnknowns.length ≠ n ∨ causalCandidates.length ≠ n then pure none
  else
    let primary ← tearWithPriority n equationUnknowns causalCandidates .CausalUnlocks
    if primary.any (·.tearVarLocalIndices.length = 1) then pure primary
    else
      let alternative ← tearWithPriority n equationUnknowns causalCandidates .VariableDegree
      match primary, alternative with
      | some p, some a =>
        pure (some (if a.tearVarLocalIndices.length < p.tearVarLocalIndices.length then a else p))
      | some p, none => pure (some p)
      | none, alternative => pure alternative

/-- The tearing of a loop, `some none` when tearing does not help. -/
def tearAlgebraicLoop (n : Nat) (equationUnknowns : List (List Nat)) : Option (Option TearingResult) :=
  tearAlgebraicLoopWithCausalCandidates n equationUnknowns equationUnknowns

example : tearAlgebraicLoop 3 [[0, 1], [1, 2], [0, 2]] = some (some ⟨[0], [1], [(0, 1), (2, 2)]⟩) := by decide

/-! ## Termination -/

variable (equationUnknowns causalCandidates : List (List Nat))

theorem solveVariable_fold (varToEqs : List (Nat × Nat)) (vars : List Nat) (st : TearState × Bool) :
    (vars.foldl (solveVariable equationUnknowns varToEqs) st).1.remainingUnknowns.length ≤
        st.1.remainingUnknowns.length ∧
      ((vars.foldl (solveVariable equationUnknowns varToEqs) st).2 = true → st.2 = true ∨
        (vars.foldl (solveVariable equationUnknowns varToEqs) st).1.remainingUnknowns.length <
          st.1.remainingUnknowns.length) := by
  induction vars generalizing st with
  | nil => exact ⟨le_refl _, fun h => .inl h⟩
  | cons var vars ih =>
    simp only [List.foldl_cons]
    obtain ⟨hle, hch⟩ := ih (solveVariable equationUnknowns varToEqs st var)
    have hstep : (solveVariable equationUnknowns varToEqs st var) = st ∨
        (solveVariable equationUnknowns varToEqs st var).1.remainingUnknowns.length <
          st.1.remainingUnknowns.length := by
      unfold solveVariable
      split
      · rename_i hv
        split
        · exact .inl rfl
        · right
          have := List.length_erase_of_mem hv
          have := List.length_pos_of_mem hv
          simp only
          omega
      · exact .inl rfl
    rcases hstep with hst | hlt
    · rw [hst] at hle hch ⊢
      exact ⟨hle, hch⟩
    · exact ⟨by omega, fun _ => .inr (by omega)⟩

theorem resolvePass_length (st : TearState) :
    (resolvePass equationUnknowns causalCandidates st).1.remainingUnknowns.length ≤
        st.remainingUnknowns.length ∧
      ((resolvePass equationUnknowns causalCandidates st).2 = true →
        (resolvePass equationUnknowns causalCandidates st).1.remainingUnknowns.length <
          st.remainingUnknowns.length) := by
  obtain ⟨hle, hch⟩ := solveVariable_fold equationUnknowns _ _ (st, false)
  exact ⟨hle, fun h => (hch h).resolve_left (by simp)⟩

theorem resolveCausalEquations_total (st : TearState) :
    ∃ st', resolveCausalEquations equationUnknowns causalCandidates st = some st' ∧
      st'.remainingUnknowns.length ≤ st.remainingUnknowns.length := by
  refine loop_spec _ (fun s => s.remainingUnknowns.length ≤ st.remainingUnknowns.length)
    (fun s => s.remainingUnknowns.length) _ (fun s hs => ?_) _ st (le_refl _) (Nat.lt_succ_self _)
  obtain ⟨hle, hch⟩ := resolvePass_length equationUnknowns causalCandidates s
  by_cases hp : (resolvePass equationUnknowns causalCandidates s).2 = true
  · exact .inl ⟨_, by simp only [resolveStep, hp, if_true], hle.trans hs, hch hp⟩
  · exact .inr ⟨_, by simp only [resolveStep, hp, if_false, Bool.false_eq_true], hle.trans hs⟩

theorem bestTear_mem {score : Nat → Nat × Nat} {vars : List Nat} {v : Nat} (h : bestTear score vars = some v) :
    v ∈ vars := by
  have key : ∀ (vars : List Nat) (best : Option Nat),
      vars.foldl (fun best var =>
        match best with
        | none => some var
        | some b =>
          if (score b).1 < (score var).1 ∨ ((score b).1 = (score var).1 ∧ (score b).2 < (score var).2) then some var
          else some b) best = some v → v ∈ vars ∨ best = some v := by
    intro vars
    induction vars with
    | nil => exact fun best h => .inr h
    | cons var vars ih =>
      intro best h
      rcases ih _ h with hm | hb
      · exact .inl (List.mem_cons_of_mem _ hm)
      · cases best with
        | none => simp only [Option.some.injEq] at hb; simp [hb]
        | some b =>
          simp only at hb
          split at hb
          · simp only [Option.some.injEq] at hb; simp [hb]
          · exact .inr hb
  exact (key vars none h).resolve_right (by simp)

theorem tearWithPriority_total (n : Nat) (priority : TearPriority) :
    ∃ r, tearWithPriority n equationUnknowns causalCandidates priority = some r := by
  have hstep : ∀ s : TearState × List Nat, True →
      (∃ s', tearStep equationUnknowns causalCandidates priority s = some (.next s') ∧ True ∧
        s'.1.remainingUnknowns.length < s.1.remainingUnknowns.length) ∨
      (∃ r, tearStep equationUnknowns causalCandidates priority s = some (.done r) ∧ True) := by
    intro s _
    obtain ⟨st, hst, hle⟩ := resolveCausalEquations_total equationUnknowns causalCandidates s.1
    simp only [tearStep, hst, Option.bind_eq_bind, Option.bind_some]
    split
    · exact .inr ⟨_, rfl, trivial⟩
    · split
      · exact .inr ⟨_, rfl, trivial⟩
      · rename_i tearVar htear
        have hm := (List.mem_filter.1 (bestTear_mem htear)).1
        refine .inl ⟨_, rfl, trivial, ?_⟩
        have := List.length_erase_of_mem hm
        have := List.length_pos_of_mem hm
        simp only
        omega
  obtain ⟨r, hr, -⟩ := loop_spec (tearStep equationUnknowns causalCandidates priority) (fun _ => True)
    (fun s => s.1.remainingUnknowns.length) (fun _ => True) hstep (n + 1) (⟨List.range n, List.range n, []⟩, [])
    trivial (by simp)
  unfold tearWithPriority
  rw [hr]
  simp only [Option.bind_eq_bind, Option.bind_some]
  split_ifs <;> exact ⟨_, rfl⟩

theorem tearAlgebraicLoop_total (n : Nat) (equationUnknowns : List (List Nat)) :
    ∃ r, tearAlgebraicLoop n equationUnknowns = some r := by
  obtain ⟨p, hp⟩ := tearWithPriority_total equationUnknowns equationUnknowns n .CausalUnlocks
  obtain ⟨a, ha⟩ := tearWithPriority_total equationUnknowns equationUnknowns n .VariableDegree
  unfold tearAlgebraicLoop tearAlgebraicLoopWithCausalCandidates
  rw [hp, ha]
  split
  · exact ⟨_, rfl⟩
  · split
    · exact ⟨_, rfl⟩
    · simp only [Option.bind_eq_bind, Option.bind_some]
      split
      · exact ⟨_, rfl⟩
      · cases p <;> cases a <;> exact ⟨_, rfl⟩

end Rumoca.Structural
