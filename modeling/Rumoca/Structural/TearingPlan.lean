import Rumoca.Structural.Tearing
import Mathlib.Data.List.Perm.Basic
/-!
# What a tearing plan promises

`TearState.Inv` is kept by every causal step and every tear: the unknowns are
remaining, torn or solved, each once, the equations are remaining or used,
each once, and a step's operands were torn or solved before it. A pass reads
one snapshot of the remaining unknowns, which only shrinks while it solves.
-/

namespace Rumoca.Structural

open Rumoca.Lib

/-- The unknowns `equation` references. -/
def unknownsOf (equationUnknowns : List (List Nat)) (equation : Nat) : List Nat := (equationUnknowns[equation]?).getD []

/-- A plan splits the unknowns into torn and solved ones and the equations into
residuals and causal steps, and every step finds its operands known. -/
structure TearingResult.Sound (n : Nat) (equationUnknowns causalCandidates : List (List Nat)) (plan : TearingResult) :
    Prop where
  unknowns : (plan.tearVarLocalIndices ++ plan.causalSequence.map Prod.snd).Perm (List.range n)
  equations : (plan.residualEqLocalIndices ++ plan.causalSequence.map Prod.fst).Perm (List.range n)
  residuals : plan.residualEqLocalIndices.length = plan.tearVarLocalIndices.length
  reduced : plan.tearVarLocalIndices.length < n
  candidate : ∀ step ∈ plan.causalSequence, step.2 ∈ unknownsOf causalCandidates step.1
  operands : ∀ before step after, plan.causalSequence = before ++ step :: after →
    ∀ u ∈ unknownsOf equationUnknowns step.1,
      u = step.2 ∨ u ∈ plan.tearVarLocalIndices ∨ u ∈ before.map Prod.snd

/-- What holds between two steps, with `tears` torn so far. -/
structure TearState.Inv (n : Nat) (equationUnknowns causalCandidates : List (List Nat)) (tears : List Nat)
    (st : TearState) : Prop where
  unknowns : (st.remainingUnknowns ++ (tears ++ st.causalSequence.map Prod.snd)).Perm (List.range n)
  equations : (st.remainingEqs ++ st.causalSequence.map Prod.fst).Perm (List.range n)
  candidate : ∀ step ∈ st.causalSequence, step.2 ∈ unknownsOf causalCandidates step.1
  operands : ∀ before step after, st.causalSequence = before ++ step :: after →
    ∀ u ∈ unknownsOf equationUnknowns step.1, u = step.2 ∨ u ∈ tears ∨ u ∈ before.map Prod.snd

variable {n : Nat} {equationUnknowns causalCandidates : List (List Nat)} {tears : List Nat}

/-- Every unknown an equation references is one of the `n`. -/
def UnknownsBelow (n : Nat) (equationUnknowns : List (List Nat)) : Prop :=
  ∀ unknowns ∈ equationUnknowns, ∀ u ∈ unknowns, u < n

theorem UnknownsBelow.lt (h : UnknownsBelow n equationUnknowns) {equation u : Nat}
    (hu : u ∈ unknownsOf equationUnknowns equation) : u < n := by
  unfold unknownsOf at hu
  cases hget : equationUnknowns[equation]? with
  | none => simp [hget] at hu
  | some unknowns =>
    rw [hget] at hu
    exact h unknowns (List.mem_of_getElem? hget) u hu

/-! ## One causal step -/

theorem bestEquation_mem {candidates : List Nat} {eq : Nat} (h : bestEquation equationUnknowns candidates = some eq) :
    eq ∈ candidates := by
  refine foldl_inv (l := candidates) (s := (none : Option Nat)) (fun passed best => ∀ e, best = some e → e ∈ passed)
    (fun pre e post best _ hbest e' he' => ?_) (by simp) eq h
  cases best with
  | none =>
    obtain rfl := Option.some.inj he'
    simp
  | some b =>
    simp only at he'
    split at he'
    · obtain rfl := Option.some.inj he'
      simp
    · exact List.mem_append_left _ (hbest e' he')

theorem uniqueLiveCausalCandidate_spec {equation var : Nat} {remaining : List Nat}
    (h : uniqueLiveCausalCandidate equation remaining equationUnknowns causalCandidates = some var) :
    liveUnknowns equationUnknowns remaining equation = [var] ∧ var ∈ unknownsOf causalCandidates equation := by
  unfold uniqueLiveCausalCandidate at h
  split at h
  · next v hlive =>
    split at h
    · next hv =>
      obtain rfl := Option.some.inj h
      exact ⟨hlive, hv⟩
    · cases h
  · cases h

theorem TearState.Inv.solve {st : TearState} (hin : UnknownsBelow n equationUnknowns)
    (h : st.Inv n equationUnknowns causalCandidates tears) {eq var : Nat} (heq : eq ∈ st.remainingEqs)
    (hvar : var ∈ st.remainingUnknowns) (hcandidate : var ∈ unknownsOf causalCandidates eq)
    (hlive : ∀ u ∈ unknownsOf equationUnknowns eq, u ∈ st.remainingUnknowns → u = var) :
    TearState.Inv n equationUnknowns causalCandidates tears
      ⟨st.remainingEqs.erase eq, st.remainingUnknowns.erase var, st.causalSequence ++ [(eq, var)]⟩ where
  unknowns := by
    have hmoved : (st.remainingUnknowns.erase var ++ (tears ++ (st.causalSequence ++ [(eq, var)]).map Prod.snd)).Perm
        (var :: st.remainingUnknowns.erase var ++ (tears ++ st.causalSequence.map Prod.snd)) := by
      simpa using List.perm_append_singleton var
        (st.remainingUnknowns.erase var ++ (tears ++ st.causalSequence.map Prod.snd))
    exact hmoved.trans (((List.perm_cons_erase hvar).symm.append_right _).trans h.unknowns)
  equations := by
    have hmoved : (st.remainingEqs.erase eq ++ (st.causalSequence ++ [(eq, var)]).map Prod.fst).Perm
        (eq :: st.remainingEqs.erase eq ++ st.causalSequence.map Prod.fst) := by
      simpa using List.perm_append_singleton eq (st.remainingEqs.erase eq ++ st.causalSequence.map Prod.fst)
    exact hmoved.trans (((List.perm_cons_erase heq).symm.append_right _).trans h.equations)
  candidate step hstep := by
    rcases List.mem_append.1 hstep with hstep | hstep
    · exact h.candidate step hstep
    · rw [List.mem_singleton.1 hstep]
      exact hcandidate
  operands before step after hsplit u hu := by
    rcases List.eq_nil_or_concat after with rfl | ⟨after', last, rfl⟩
    · obtain ⟨rfl, hstep⟩ := List.append_inj' hsplit rfl
      obtain rfl := List.singleton_inj.1 hstep
      have hmem := h.unknowns.mem_iff.2 (List.mem_range.2 (hin.lt hu))
      rcases List.mem_append.1 hmem with hrem | hknown
      · exact .inl (hlive u hu hrem)
      · exact .inr (List.mem_append.1 hknown)
    · have : st.causalSequence = before ++ step :: after' := by
        have hcat : st.causalSequence ++ [(eq, var)] = (before ++ step :: after') ++ [last] := by simpa using hsplit
        exact (List.append_inj' hcat rfl).1
      exact h.operands before step after' this u hu

theorem TearState.Inv.tear {st : TearState} (h : st.Inv n equationUnknowns causalCandidates tears) {var : Nat}
    (hvar : var ∈ st.remainingUnknowns) :
    TearState.Inv n equationUnknowns causalCandidates (tears ++ [var])
      { st with remainingUnknowns := st.remainingUnknowns.erase var } where
  unknowns := by
    have hmoved : (st.remainingUnknowns.erase var ++ (tears ++ [var] ++ st.causalSequence.map Prod.snd)).Perm
        (var :: st.remainingUnknowns.erase var ++ (tears ++ st.causalSequence.map Prod.snd)) := by
      simp only [← List.append_assoc, List.append_assoc _ [var], List.singleton_append]
      exact List.perm_middle
    exact hmoved.trans (((List.perm_cons_erase hvar).symm.append_right _).trans h.unknowns)
  equations := h.equations
  candidate := h.candidate
  operands before step after hsplit u hu := by
    rcases h.operands before step after hsplit u hu with hu | hu | hu
    · exact .inl hu
    · exact .inr (.inl (List.mem_append_left _ hu))
    · exact .inr (.inr hu)

/-! ## One pass -/

/-- A pass after some of its variables: the candidates of the others are untouched. -/
structure PassInv (n : Nat) (equationUnknowns causalCandidates : List (List Nat)) (tears snapshot : List Nat)
    (varToEqs : List (Nat × Nat)) (passed : List Nat) (st : TearState) : Prop where
  inv : st.Inv n equationUnknowns causalCandidates tears
  shrunk : st.remainingUnknowns ⊆ snapshot
  candidates : ∀ entry ∈ varToEqs, entry.1 ∉ passed → entry.2 ∈ st.remainingEqs

theorem solveVariable_spec (hin : UnknownsBelow n equationUnknowns) {snapshot passed : List Nat}
    {varToEqs : List (Nat × Nat)}
    (hentries : ∀ entry ∈ varToEqs, liveUnknowns equationUnknowns snapshot entry.2 = [entry.1] ∧
      entry.1 ∈ unknownsOf causalCandidates entry.2)
    {st : TearState × Bool} (h : PassInv n equationUnknowns causalCandidates tears snapshot varToEqs passed st.1) {var : Nat}
    (hnew : var ∉ passed) :
    PassInv n equationUnknowns causalCandidates tears snapshot varToEqs (passed ++ [var])
      (solveVariable equationUnknowns varToEqs st var).1 := by
  have hkeep : PassInv n equationUnknowns causalCandidates tears snapshot varToEqs (passed ++ [var]) st.1 :=
    ⟨h.inv, h.shrunk, fun entry he hnot => h.candidates entry he fun hp => hnot (List.mem_append_left _ hp)⟩
  unfold solveVariable
  split
  · next hvar =>
    split
    · exact hkeep
    · next eq hbest =>
      obtain ⟨entry, hfilter, rfl⟩ := List.mem_map.1 (bestEquation_mem hbest)
      obtain ⟨hentry, hfst⟩ := List.mem_filter.1 hfilter
      obtain rfl : entry.1 = var := by simpa using hfst
      obtain ⟨hlive, hcandidate⟩ := hentries entry hentry
      have honly : ∀ u ∈ unknownsOf equationUnknowns entry.2, u ∈ st.1.remainingUnknowns → u = entry.1 := by
        intro u hu hrem
        have hmem : u ∈ liveUnknowns equationUnknowns snapshot entry.2 :=
          List.mem_filter.2 ⟨hu, by simpa using h.shrunk hrem⟩
        rw [hlive] at hmem
        exact List.mem_singleton.1 hmem
      refine ⟨h.inv.solve hin (h.candidates entry hentry hnew) hvar hcandidate honly,
        fun u hu => h.shrunk (List.mem_of_mem_erase hu), fun other ho hnot => ?_⟩
      have hne : other.2 ≠ entry.2 := by
        intro heq
        have hsame : other.1 = entry.1 := by
          have := (hentries other ho).1
          rw [heq, hlive] at this
          exact (List.singleton_inj.1 this).symm
        exact hnot (by simp [hsame])
      exact (List.mem_erase_of_ne hne).2 (h.candidates other ho fun hp => hnot (List.mem_append_left _ hp))
  · exact hkeep

theorem resolvePass_inv (hin : UnknownsBelow n equationUnknowns) {st : TearState}
    (h : st.Inv n equationUnknowns causalCandidates tears) :
    TearState.Inv n equationUnknowns causalCandidates tears (resolvePass equationUnknowns causalCandidates st).1 := by
  set varToEqs : List (Nat × Nat) := st.remainingEqs.filterMap fun eq =>
    (uniqueLiveCausalCandidate eq st.remainingUnknowns equationUnknowns causalCandidates).map (·, eq) with hdef
  have hentry : ∀ entry ∈ varToEqs, entry.2 ∈ st.remainingEqs ∧
      uniqueLiveCausalCandidate entry.2 st.remainingUnknowns equationUnknowns causalCandidates = some entry.1 := by
    rintro ⟨var, eq⟩ he
    rw [hdef, List.mem_filterMap] at he
    obtain ⟨eq', heq', hmap⟩ := he
    obtain ⟨var', hvar', hpair⟩ := Option.map_eq_some_iff.1 hmap
    obtain ⟨rfl, rfl⟩ := Prod.mk.inj hpair
    exact ⟨heq', hvar'⟩
  have hnd : (sortDedup (varToEqs.map (·.1))).Nodup := (sortDedup_sorted _).imp Nat.ne_of_lt
  refine (foldl_inv (f := solveVariable equationUnknowns varToEqs) (l := sortDedup (varToEqs.map (·.1)))
    (fun passed (s : TearState × Bool) =>
      PassInv n equationUnknowns causalCandidates tears st.remainingUnknowns varToEqs passed s.1)
    (fun pre var post s hl hs => solveVariable_spec hin
      (fun entry he => uniqueLiveCausalCandidate_spec (hentry entry he).2) hs ?_)
    (s := (st, false)) ⟨h, List.Subset.refl _, fun entry he _ => (hentry entry he).1⟩).inv
  intro hvar
  rw [hl, List.nodup_append] at hnd
  exact hnd.2.2 var hvar var (by simp) rfl

theorem resolveCausalEquations_inv (hin : UnknownsBelow n equationUnknowns) {st st' : TearState}
    (h : st.Inv n equationUnknowns causalCandidates tears)
    (hrun : resolveCausalEquations equationUnknowns causalCandidates st = some st') :
    st'.Inv n equationUnknowns causalCandidates tears := by
  refine loop_inv (resolveStep equationUnknowns causalCandidates) (TearState.Inv n equationUnknowns causalCandidates tears)
    _ (fun s s' hs hstep => ?_) (fun s r hs hstep => ?_) _ st st' h hrun
  · simp only [resolveStep, Option.some.injEq] at hstep
    obtain rfl : (resolvePass equationUnknowns causalCandidates s).1 = s' := by
      split at hstep
      · exact Ctl.next.inj hstep
      · cases hstep
    exact resolvePass_inv hin hs
  · simp only [resolveStep, Option.some.injEq] at hstep
    obtain rfl : (resolvePass equationUnknowns causalCandidates s).1 = r := by
      split at hstep
      · cases hstep
      · exact Ctl.done.inj hstep
    exact resolvePass_inv hin hs

/-! ## A whole plan -/

theorem tearStep_inv (hin : UnknownsBelow n equationUnknowns) {priority : TearPriority} {s : TearState × List Nat}
    (h : s.1.Inv n equationUnknowns causalCandidates s.2) {c : Ctl (TearState × List Nat) (TearState × List Nat)}
    (hstep : tearStep equationUnknowns causalCandidates priority s = some c) :
    (∃ s', c = .next s' ∧ s'.1.Inv n equationUnknowns causalCandidates s'.2) ∨
      (∃ s', c = .done s' ∧ s'.1.Inv n equationUnknowns causalCandidates s'.2) := by
  obtain ⟨st, hst, hrest⟩ := Option.bind_eq_some_iff.1 hstep
  have hinv := resolveCausalEquations_inv hin h hst
  split at hrest
  · exact .inr ⟨_, (Option.some.inj hrest).symm, hinv⟩
  · simp only at hrest
    split at hrest
    · exact .inr ⟨_, (Option.some.inj hrest).symm, hinv⟩
    · next tearVar htear =>
      exact .inl ⟨_, (Option.some.inj hrest).symm, hinv.tear (List.mem_filter.1 (bestTear_mem htear)).1⟩

theorem tearWithPriority_sound (hin : UnknownsBelow n equationUnknowns) {priority : TearPriority} {plan : TearingResult}
    (hrun : tearWithPriority n equationUnknowns causalCandidates priority = some (some plan)) :
    plan.Sound n equationUnknowns causalCandidates := by
  obtain ⟨⟨st, tears⟩, hloop, hrest⟩ := Option.bind_eq_some_iff.1 hrun
  have hinv : st.Inv n equationUnknowns causalCandidates tears := by
    refine loop_inv (tearStep equationUnknowns causalCandidates priority)
      (fun s => s.1.Inv n equationUnknowns causalCandidates s.2)
      (fun s => s.1.Inv n equationUnknowns causalCandidates s.2)
      (fun s s' hs hstep => ?_) (fun s r hs hstep => ?_) _ _ _
      ⟨by simp, by simp, by simp, by simp⟩ hloop
    · rcases tearStep_inv hin hs hstep with ⟨t, ht, hinv⟩ | ⟨t, ht, -⟩
      · exact Ctl.next.inj ht ▸ hinv
      · exact nomatch ht
    · rcases tearStep_inv hin hs hstep with ⟨t, ht, -⟩ | ⟨t, ht, hinv⟩
      · exact nomatch ht
      · exact Ctl.done.inj ht ▸ hinv
  simp only [Option.pure_def] at hrest
  split_ifs at hrest with htears hcount
  · cases Option.some.inj hrest
  · cases Option.some.inj hrest
  obtain rfl := Option.some.inj (Option.some.inj hrest)
  push Not at htears
  -- the unknowns left over number the residuals less the tears
  have hnone : st.remainingUnknowns = [] := by
    have hu := hinv.unknowns.length_eq
    have he := hinv.equations.length_eq
    simp only [List.length_append, List.length_map, List.length_range] at hu he
    exact List.eq_nil_of_length_eq_zero (by omega)
  refine ⟨?_, hinv.equations, not_not.1 hcount, htears.2, hinv.candidate, hinv.operands⟩
  have := hinv.unknowns
  rwa [hnone, List.nil_append] at this

/-- Tearing ends, and a plan it returns is sound for its unknowns, its equations and its candidates. -/
theorem tearAlgebraicLoopWithCausalCandidates_sound (n : Nat) (equationUnknowns causalCandidates : List (List Nat))
    (hin : UnknownsBelow n equationUnknowns) :
    ∃ result, tearAlgebraicLoopWithCausalCandidates n equationUnknowns causalCandidates = some result ∧
      ∀ plan, result = some plan → plan.Sound n equationUnknowns causalCandidates := by
  obtain ⟨primary, hprimary⟩ := tearWithPriority_total equationUnknowns causalCandidates n .CausalUnlocks
  obtain ⟨alternative, halternative⟩ := tearWithPriority_total equationUnknowns causalCandidates n .VariableDegree
  have hsound : ∀ plan, primary = some plan ∨ alternative = some plan → plan.Sound n equationUnknowns causalCandidates := by
    rintro plan (rfl | rfl)
    · exact tearWithPriority_sound hin hprimary
    · exact tearWithPriority_sound hin halternative
  unfold tearAlgebraicLoopWithCausalCandidates
  simp only [hprimary, halternative, Option.bind_eq_bind, Option.bind_some]
  split_ifs with hzero hlen hone
  · exact ⟨none, rfl, fun plan h => nomatch h⟩
  · exact ⟨none, rfl, fun plan h => nomatch h⟩
  · exact ⟨primary, rfl, fun plan h => hsound plan (.inl h)⟩
  · cases primary with
    | none => exact ⟨alternative, rfl, fun plan h => hsound plan (.inr h)⟩
    | some p =>
      cases alternative with
      | none => exact ⟨some p, rfl, fun plan h => hsound plan (.inl h)⟩
      | some a =>
        refine ⟨_, rfl, fun plan h => hsound plan ?_⟩
        split at h
        · exact .inr h
        · exact .inl h

/-- A loop of three equations with one that cannot be solved causally. -/
theorem tearAlgebraicLoopWithCausalCandidates_three :
    ∃ result, tearAlgebraicLoopWithCausalCandidates 3 [[0, 1], [1, 2], [0, 2]] [[0, 1], [], [0, 2]] = some result ∧
      ∀ plan, result = some plan → plan.Sound 3 [[0, 1], [1, 2], [0, 2]] [[0, 1], [], [0, 2]] :=
  tearAlgebraicLoopWithCausalCandidates_sound 3 _ _ (by unfold UnknownsBelow; decide)

end Rumoca.Structural
