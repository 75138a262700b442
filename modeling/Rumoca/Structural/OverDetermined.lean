import Rumoca.Structural.Matching
import Rumoca.Lib.Alternating
import Rumoca.Lib.Flags
/-!
# The over-determined block of a singular system

The equations and unknowns reached from the unmatched equations, from an
equation to its unknowns and from an unknown to its owner. `alternatingClosure`
is the walk of `over_determined_block` and of `overdetermined_block_variables`;
`overDeterminedBlock_spec`: under a maximum matching what it counts is closed,
with as many equations too many as there are unmatched ones. `none` stands for
an index panic of the source.
-/

namespace Rumoca.Structural

open Rumoca.Lib

structure SingularBlockWitness where
  equations : Nat
  unknowns : Nat
  sample : List String
deriving DecidableEq, Repr

/-- The flags of a walk and its pending equations, the last one pushed first. -/
structure ClosureState where
  seenEquations : List Bool
  seenUnknowns : List Bool
  pending : List Nat

/-- Set the flag at `index`. -/
def markFlag (flags : List Bool) (index : Nat) : Option (List Bool) :=
  if index < flags.length then some (flags.set index true) else none

def pushOwner (s : ClosureState) (owner : Nat) : Option ClosureState := do
  if ← s.seenEquations[owner]? then pure s
  else pure { s with seenEquations := ← markFlag s.seenEquations owner, pending := owner :: s.pending }

def visitUnknown (matchVar : List (Option Nat)) (s : ClosureState) (unknown : Nat) : Option ClosureState := do
  if ← s.seenUnknowns[unknown]? then pure s
  else
    let s := { s with seenUnknowns := ← markFlag s.seenUnknowns unknown }
    match ← matchVar[unknown]? with
    | none => pure s
    | some owner => pushOwner s owner

/-- One turn of the `while let` over the pending equations. -/
def closureTurn (rows : IncidenceRows) (matchVar : List (Option Nat)) (s : ClosureState) :
    Option (Ctl ClosureState ClosureState) :=
  match s.pending with
  | [] => some (.done s)
  | equation :: pending => do
    let s ← (rows.row equation).foldlM (visitUnknown matchVar) { s with pending := pending }
    pure (.next s)

def unmatchedEquations (matchEq : List (Option Nat)) : List Nat :=
  (List.range matchEq.length).filter fun equation => matchEq[equation]? = some none

def alternatingClosure (incidence : Incidence) (matchEq matchVar : List (Option Nat)) : Option ClosureState := do
  let roots := unmatchedEquations matchEq
  let seen ← roots.foldlM markFlag (List.replicate incidence.nEq false)
  loop (closureTurn incidence.eqUnknowns matchVar) (incidence.nEq + 1)
    ⟨seen, List.replicate incidence.nVar false, roots.reverse⟩

def setIndices (flags : List Bool) : List Nat :=
  (List.range flags.length).filter fun index => flags[index]? = some true

def overDeterminedBlock (incidence : Incidence) (matchEq matchVar : List (Option Nat)) : Option SingularBlockWitness := do
  let s ← alternatingClosure incidence matchEq matchVar
  pure {
    equations := (setIndices s.seenEquations).length
    unknowns := (setIndices s.seenUnknowns).length
    sample := ((setIndices s.seenEquations).map fun index => s!"f_x[{index}]").take 24 }

/-- The declarations that own the unknowns of the block, in the order of their
indices; the source collects them in a set. -/
def overdeterminedBlockVariables (incidence : Incidence) (preferences : List (Option Nat)) : Option (List Nat) := do
  let (matchEq, matchVar) ← maximumMatchingWithStructured incidence.nEq incidence.nVar incidence.eqUnknowns preferences
    incidence.structuredMatching
  let s ← alternatingClosure incidence matchEq matchVar
  let unknowns ← (setIndices s.seenUnknowns).mapM (incidence.unknowns[·]?)
  pure (sortDedup (unknowns.filterMap fun unknown =>
    match unknown with
    | .Derivative state _ => some state
    | .Algebraic var _ => some var
    | .Solver _ | .Unmatched _ => none))

/-! ## The walk -/

/-- A maximum matching of the incidence, as the two lists of the source. -/
structure MaximumMatching (incidence : Incidence) (matchEq matchVar : List (Option Nat)) : Prop where
  eq_length : matchEq.length = incidence.nEq
  var_length : matchVar.length = incidence.nVar
  inverse : ∀ e v : Nat, matchEq[e]? = some (some v) ↔ matchVar[v]? = some (some e)
  edge : ∀ e v : Nat, matchEq[e]? = some (some v) → v ∈ incidence.eqUnknowns.row e
  maximum : IsMaximum (fun e v => v ∈ incidence.eqUnknowns.row e) (Finset.range incidence.nEq) fun e => (matchEq[e]?).join

variable {incidence : Incidence} {matchEq matchVar : List (Option Nat)}

theorem MaximumMatching.isMatching (h : MaximumMatching incidence matchEq matchVar) :
    IsMatching (fun e v => v ∈ incidence.eqUnknowns.row e) fun e => (matchEq[e]?).join := by
  refine ⟨fun e v hv => h.edge e v (Option.join_eq_some_iff.1 hv), fun e e' v hv hv' => ?_⟩
  have h₁ := (h.inverse e v).1 (Option.join_eq_some_iff.1 hv)
  have h₂ := (h.inverse e' v).1 (Option.join_eq_some_iff.1 hv')
  exact Option.some.inj (Option.some.inj (h₁.symm.trans h₂))

theorem markFlag_eq {flags : List Bool} {index : Nat} (h : index < flags.length) :
    markFlag flags index = some (flags.set index true) := if_pos h

theorem getElem?_set_true {flags : List Bool} {index j : Nat} (h : index < flags.length) :
    (flags.set index true)[j]? = some true ↔ j = index ∨ flags[j]? = some true := by
  rw [List.getElem?_set]
  by_cases hj : index = j
  · subst hj
    simp [h]
  · simp [hj, Ne.symm hj]

/-- What holds between two turns, besides that the equations done have all their unknowns seen. -/
structure ClosureState.Inv (incidence : Incidence) (matchEq matchVar : List (Option Nat)) (s : ClosureState) : Prop where
  equations_length : s.seenEquations.length = incidence.nEq
  unknowns_length : s.seenUnknowns.length = incidence.nVar
  unmatched : ∀ e : Nat, matchEq[e]? = some none → s.seenEquations[e]? = some true
  pending : ∀ e ∈ s.pending, s.seenEquations[e]? = some true
  reached : ∀ e : Nat, s.seenEquations[e]? = some true → ∃ root k, matchEq[root]? = some none ∧
    Alternates (fun e v => v ∈ incidence.eqUnknowns.row e) (fun e => (matchEq[e]?).join) root k e
  unknown : ∀ v : Nat, s.seenUnknowns[v]? = some true →
    (∃ e : Nat, s.seenEquations[e]? = some true ∧ v ∈ incidence.eqUnknowns.row e) ∧
      ∀ owner, matchVar[v]? = some (some owner) → s.seenEquations[owner]? = some true

/-- The work left: flags of equations not set, and pending equations. -/
def ClosureState.weight (s : ClosureState) : Nat := s.seenEquations.count false + s.pending.length

/-- What a visit keeps: the flags set and the equations that are not pending. -/
structure ClosureState.Extends (s s' : ClosureState) : Prop where
  equations : ∀ e : Nat, s.seenEquations[e]? = some true → s'.seenEquations[e]? = some true
  unknowns : ∀ v : Nat, s.seenUnknowns[v]? = some true → s'.seenUnknowns[v]? = some true
  pending : ∀ e ∈ s.pending, e ∈ s'.pending
  fresh : ∀ e : Nat, s'.seenEquations[e]? = some true → s.seenEquations[e]? = some true ∨ e ∈ s'.pending
  weight : s'.weight ≤ s.weight

theorem ClosureState.Extends.refl (s : ClosureState) : s.Extends s :=
  ⟨fun _ h => h, fun _ h => h, fun _ h => h, fun _ h => .inl h, Nat.le_refl _⟩

theorem ClosureState.Extends.trans {s s' s'' : ClosureState} (h : s.Extends s') (h' : s'.Extends s'') : s.Extends s'' where
  equations e he := h'.equations e (h.equations e he)
  unknowns v hv := h'.unknowns v (h.unknowns v hv)
  pending e he := h'.pending e (h.pending e he)
  fresh e he := by
    rcases h'.fresh e he with he | he
    · exact (h.fresh e he).imp id (h'.pending e)
    · exact .inr he
  weight := h'.weight.trans h.weight

theorem visitUnknown_spec (hM : MaximumMatching incidence matchEq matchVar) {s : ClosureState}
    (h : s.Inv incidence matchEq matchVar) {equation unknown : Nat} (hseen : s.seenEquations[equation]? = some true)
    (hrow : unknown ∈ incidence.eqUnknowns.row equation) :
    ∃ s', visitUnknown matchVar s unknown = some s' ∧ s'.Inv incidence matchEq matchVar ∧ s.Extends s' ∧
      s'.seenUnknowns[unknown]? = some true := by
  obtain ⟨seenE, seenU, pending⟩ := s
  have hlt : unknown < seenU.length := by
    rw [h.unknowns_length]
    exact incidence.columns_lt equation unknown hrow
  obtain ⟨flag, hflag⟩ : ∃ flag, seenU[unknown]? = some flag := ⟨_, List.getElem?_eq_getElem hlt⟩
  cases flag with
  | true =>
    refine ⟨⟨seenE, seenU, pending⟩, ?_, h, .refl _, hflag⟩
    simp only [visitUnknown, hflag, Option.bind_eq_bind, Option.bind_some]
    rfl
  | false =>
    have hset : ∀ v : Nat, (seenU.set unknown true)[v]? = some true ↔ v = unknown ∨ seenU[v]? = some true := fun v =>
      getElem?_set_true hlt
    obtain ⟨partner, hpartner⟩ : ∃ partner, matchVar[unknown]? = some partner :=
      ⟨_, List.getElem?_eq_getElem (by rw [hM.var_length, ← h.unknowns_length]; exact hlt)⟩
    -- without an owner to push only the unknown's flag changes
    have hplain : (∀ owner, matchVar[unknown]? = some (some owner) → seenE[owner]? = some true) →
        ClosureState.Inv incidence matchEq matchVar ⟨seenE, seenU.set unknown true, pending⟩ ∧
        ClosureState.Extends ⟨seenE, seenU, pending⟩ ⟨seenE, seenU.set unknown true, pending⟩ := by
      intro howner
      refine ⟨⟨h.equations_length, by rw [List.length_set]; exact h.unknowns_length, h.unmatched, h.pending, h.reached,
        fun v hv => ?_⟩, ⟨fun _ he => he, fun v hv => (hset v).2 (.inr hv), fun _ he => he, fun _ he => .inl he,
        Nat.le_refl _⟩⟩
      rcases (hset v).1 hv with rfl | hv
      · exact ⟨⟨equation, hseen, hrow⟩, howner⟩
      · exact h.unknown v hv
    cases partner with
    | none =>
      obtain ⟨hinv, hext⟩ := hplain fun owner ho => by rw [hpartner] at ho; cases ho
      refine ⟨_, ?_, hinv, hext, (hset unknown).2 (.inl rfl)⟩
      simp only [visitUnknown, hflag, Option.bind_eq_bind, Option.bind_some, markFlag_eq hlt, hpartner]
      rfl
    | some owner =>
      have hown : matchEq[owner]? = some (some unknown) := (hM.inverse owner unknown).2 hpartner
      have hlt' : owner < seenE.length := by
        rw [h.equations_length, ← hM.eq_length]
        exact (List.getElem?_eq_some_iff.1 hown).1
      have hrun : visitUnknown matchVar ⟨seenE, seenU, pending⟩ unknown =
          pushOwner ⟨seenE, seenU.set unknown true, pending⟩ owner := by
        simp only [visitUnknown, hflag, Option.bind_eq_bind, Option.bind_some, markFlag_eq hlt, hpartner]
        rfl
      rw [hrun]
      obtain ⟨flag, hflag'⟩ : ∃ flag, seenE[owner]? = some flag := ⟨_, List.getElem?_eq_getElem hlt'⟩
      cases flag with
      | true =>
        obtain ⟨hinv, hext⟩ := hplain fun o ho => by
          rw [hpartner] at ho
          obtain rfl := Option.some.inj (Option.some.inj ho)
          exact hflag'
        refine ⟨_, ?_, hinv, hext, (hset unknown).2 (.inl rfl)⟩
        simp only [pushOwner, hflag', Option.bind_eq_bind, Option.bind_some]
        rfl
      | false =>
        have hset' : ∀ e : Nat, (seenE.set owner true)[e]? = some true ↔ e = owner ∨ seenE[e]? = some true := fun e =>
          getElem?_set_true hlt'
        refine ⟨⟨seenE.set owner true, seenU.set unknown true, owner :: pending⟩, ?_, ?_, ?_, (hset unknown).2 (.inl rfl)⟩
        · simp only [pushOwner, hflag', Option.bind_eq_bind, Option.bind_some, markFlag_eq hlt']
          rfl
        · refine ⟨by rw [List.length_set]; exact h.equations_length, by rw [List.length_set]; exact h.unknowns_length,
            fun e he => (hset' e).2 (.inr (h.unmatched e he)), fun e he => ?_, fun e he => ?_, fun v hv => ?_⟩
          · rcases List.mem_cons.1 he with rfl | he
            · exact (hset' e).2 (.inl rfl)
            · exact (hset' e).2 (.inr (h.pending e he))
          · rcases (hset' e).1 he with rfl | he
            · obtain ⟨root, k, hroot, hpath⟩ := h.reached equation hseen
              exact ⟨root, k + 1, hroot, hpath.tail hrow (Option.join_eq_some_iff.2 hown)⟩
            · exact h.reached e he
          · rcases (hset v).1 hv with rfl | hv
            · refine ⟨⟨equation, (hset' equation).2 (.inr hseen), hrow⟩, fun o ho => ?_⟩
              rw [hpartner] at ho
              exact (hset' o).2 (.inl (Option.some.inj (Option.some.inj ho)).symm)
            · obtain ⟨⟨e, he, hv⟩, howner⟩ := h.unknown v hv
              exact ⟨⟨e, (hset' e).2 (.inr he), hv⟩, fun o ho => (hset' o).2 (.inr (howner o ho))⟩
        · refine ⟨fun e he => (hset' e).2 (.inr he), fun v hv => (hset v).2 (.inr hv),
            fun e he => List.mem_cons_of_mem owner he, fun e he => ?_, ?_⟩
          · rcases (hset' e).1 he with rfl | he
            · exact .inr (by simp)
            · exact .inl he
          · have := count_set_lt (show _ = some (!true) from hflag')
            simp only [ClosureState.weight, List.length_cons]
            simp only [Bool.not_true] at this
            omega

/-- Every equation seen and no longer pending has its unknowns seen. -/
def ClosureState.Done (incidence : Incidence) (s : ClosureState) : Prop :=
  ∀ e : Nat, s.seenEquations[e]? = some true → e ∈ s.pending ∨
    ∀ v ∈ incidence.eqUnknowns.row e, s.seenUnknowns[v]? = some true

theorem closureTurn_spec (hM : MaximumMatching incidence matchEq matchVar) {s : ClosureState}
    (h : s.Inv incidence matchEq matchVar) (hdone : s.Done incidence) :
    (∃ s', closureTurn incidence.eqUnknowns matchVar s = some (.next s') ∧
      (s'.Inv incidence matchEq matchVar ∧ s'.Done incidence) ∧ s'.weight < s.weight) ∨
    (closureTurn incidence.eqUnknowns matchVar s = some (.done s) ∧ s.pending = []) := by
  obtain ⟨seenE, seenU, pending⟩ := s
  cases pending with
  | nil => exact .inr ⟨rfl, rfl⟩
  | cons equation pending =>
    have hseen : seenE[equation]? = some true := h.pending equation (by simp)
    have hstart : ClosureState.Inv incidence matchEq matchVar ⟨seenE, seenU, pending⟩ :=
      ⟨h.equations_length, h.unknowns_length, h.unmatched, fun e he => h.pending e (by simp [he]), h.reached, h.unknown⟩
    obtain ⟨s', hrun, hinv, hext, hrow⟩ := foldlM_spec (f := visitUnknown matchVar)
      (l := incidence.eqUnknowns.row equation)
      (fun passed t => t.Inv incidence matchEq matchVar ∧ ClosureState.Extends ⟨seenE, seenU, pending⟩ t ∧
        ∀ v ∈ passed, t.seenUnknowns[v]? = some true)
      (fun pre unknown post t hl ht => by
        obtain ⟨t', hvisit, hinv, hext, hnew⟩ := visitUnknown_spec hM ht.1 (ht.2.1.equations equation hseen)
          (show unknown ∈ incidence.eqUnknowns.row equation by simp [hl])
        refine ⟨t', hvisit, hinv, ht.2.1.trans hext, fun v hv => ?_⟩
        rcases List.mem_append.1 hv with hv | hv
        · exact hext.unknowns v (ht.2.2 v hv)
        · exact List.mem_singleton.1 hv ▸ hnew)
      (s := ⟨seenE, seenU, pending⟩) ⟨hstart, .refl _, by simp⟩
    refine .inl ⟨s', by simp only [closureTurn, hrun, Option.bind_eq_bind, Option.bind_some]; rfl,
      ⟨hinv, fun e he => ?_⟩, ?_⟩
    · rcases hext.fresh e he with he | he
      · by_cases heq : e = equation
        · exact .inr fun v hv => hrow v (heq ▸ hv)
        · rcases hdone e he with he | he
          · exact .inl (hext.pending e ((List.mem_cons.1 he).resolve_left heq))
          · exact .inr fun v hv => hext.unknowns v (he v hv)
      · exact .inl he
    · have := hext.weight
      simp only [ClosureState.weight, List.length_cons] at this ⊢
      omega

theorem mem_unmatchedEquations {e : Nat} : e ∈ unmatchedEquations matchEq ↔ matchEq[e]? = some none := by
  simp only [unmatchedEquations, List.mem_filter, List.mem_range, decide_eq_true_eq]
  exact ⟨fun h => h.2, fun h => ⟨(List.getElem?_eq_some_iff.1 h).1, h⟩⟩

theorem mem_setIndices {flags : List Bool} {i : Nat} : i ∈ setIndices flags ↔ flags[i]? = some true := by
  simp only [setIndices, List.mem_filter, List.mem_range, decide_eq_true_eq]
  exact ⟨fun h => h.2, fun h => ⟨(List.getElem?_eq_some_iff.1 h).1, h⟩⟩

theorem nodup_setIndices (flags : List Bool) : (setIndices flags).Nodup := List.nodup_range.filter _

theorem nodup_unmatchedEquations (matchEq : List (Option Nat)) : (unmatchedEquations matchEq).Nodup :=
  List.nodup_range.filter _

variable (incidence) in
theorem markRoots_spec (hlen : matchEq.length = incidence.nEq) :
    ∃ seen, (unmatchedEquations matchEq).foldlM markFlag (List.replicate incidence.nEq false) = some seen ∧
      seen.length = incidence.nEq ∧ (∀ e : Nat, seen[e]? = some true ↔ matchEq[e]? = some none) ∧
      seen.count false + (unmatchedEquations matchEq).length ≤ incidence.nEq := by
  have hnd := nodup_unmatchedEquations matchEq
  obtain ⟨seen, hrun, hlength, hmem, hcount⟩ := foldlM_spec (f := markFlag) (l := unmatchedEquations matchEq)
    (fun pre (seen : List Bool) => seen.length = incidence.nEq ∧ (∀ e : Nat, seen[e]? = some true ↔ e ∈ pre) ∧
      seen.count false + pre.length ≤ incidence.nEq)
    (fun pre e post seen hl hs => by
      obtain ⟨hlength, hmem, hcount⟩ := hs
      have hlt : e < seen.length := by
        rw [hlength, ← hlen]
        exact (List.getElem?_eq_some_iff.1 (mem_unmatchedEquations.1 (show e ∈ unmatchedEquations matchEq by simp [hl]))).1
      have hnew : seen[e]? = some false := by
        rw [List.getElem?_eq_getElem hlt, Option.some.injEq, Bool.eq_false_iff]
        intro htrue
        have he : e ∈ pre := (hmem e).1 (by rw [List.getElem?_eq_getElem hlt, htrue])
        rw [hl, List.nodup_append] at hnd
        exact hnd.2.2 e he e (by simp) rfl
      refine ⟨_, markFlag_eq hlt, by rw [List.length_set, hlength], fun e' => ?_, ?_⟩
      · rw [getElem?_set_true hlt, hmem e', List.mem_append, List.mem_singleton, or_comm]
      · have := count_set_lt (show _ = some (!true) from hnew)
        rw [Bool.not_true] at this
        simp only [List.length_append, List.length_singleton]
        omega)
    (s := List.replicate incidence.nEq false) ⟨List.length_replicate, by simp [List.getElem?_replicate], by simp⟩
  exact ⟨seen, hrun, hlength, fun e => by rw [hmem e, mem_unmatchedEquations], hcount⟩

theorem alternatingClosure_spec (hM : MaximumMatching incidence matchEq matchVar) :
    ∃ s, alternatingClosure incidence matchEq matchVar = some s ∧ s.Inv incidence matchEq matchVar ∧
      ∀ e : Nat, s.seenEquations[e]? = some true → ∀ v ∈ incidence.eqUnknowns.row e, s.seenUnknowns[v]? = some true := by
  obtain ⟨seen, hmark, hlength, hmem, hcount⟩ := markRoots_spec incidence hM.eq_length
  have hstart : ClosureState.Inv incidence matchEq matchVar
      ⟨seen, List.replicate incidence.nVar false, (unmatchedEquations matchEq).reverse⟩ := by
    refine ⟨hlength, List.length_replicate, fun e he => (hmem e).2 he, fun e he => ?_, fun e he => ?_, fun v hv => ?_⟩
    · exact (hmem e).2 (mem_unmatchedEquations.1 (List.mem_reverse.1 he))
    · exact ⟨e, 0, (hmem e).1 he, .refl⟩
    · simp [List.getElem?_replicate] at hv
  obtain ⟨s, hrun, hinv, hdone, hpending⟩ := loop_spec (closureTurn incidence.eqUnknowns matchVar)
    (fun s => s.Inv incidence matchEq matchVar ∧ s.Done incidence) ClosureState.weight
    (fun s => s.Inv incidence matchEq matchVar ∧ s.Done incidence ∧ s.pending = [])
    (fun s hs => by
      rcases closureTurn_spec hM hs.1 hs.2 with ⟨s', hstep, hs', hlt⟩ | ⟨hstep, hempty⟩
      · exact .inl ⟨s', hstep, hs', hlt⟩
      · exact .inr ⟨s, hstep, hs.1, hs.2, hempty⟩)
    (incidence.nEq + 1) _
    ⟨hstart, fun e he => .inl (List.mem_reverse.2 (mem_unmatchedEquations.2 ((hmem e).1 he)))⟩
    (by simp only [ClosureState.weight, List.length_reverse]; omega)
  refine ⟨s, ?_, hinv, fun e he => (hdone e he).resolve_left (by simp [hpending])⟩
  simp only [alternatingClosure, hmark, Option.bind_eq_bind, Option.bind_some]
  exact hrun

/-- The equations and unknowns counted: every unknown of a counted equation is
counted, every counted unknown is matched to a counted equation, and the
equations exceed the unknowns by the unmatched ones. -/
theorem overDeterminedBlock_spec (incidence : Incidence) (matchEq matchVar : List (Option Nat))
    (hM : MaximumMatching incidence matchEq matchVar) :
    ∃ s block, alternatingClosure incidence matchEq matchVar = some s ∧
      overDeterminedBlock incidence matchEq matchVar = some block ∧
      block.equations = (setIndices s.seenEquations).length ∧ block.unknowns = (setIndices s.seenUnknowns).length ∧
      (∀ e ∈ setIndices s.seenEquations, ∀ v ∈ incidence.eqUnknowns.row e, v ∈ setIndices s.seenUnknowns) ∧
      (∀ v ∈ setIndices s.seenUnknowns, ∃ e ∈ setIndices s.seenEquations, matchVar[v]? = some (some e)) ∧
      block.equations = block.unknowns + (unmatchedEquations matchEq).length := by
  obtain ⟨s, hrun, hinv, hclosed⟩ := alternatingClosure_spec hM
  have hrows : ∀ e ∈ setIndices s.seenEquations, ∀ v ∈ incidence.eqUnknowns.row e, v ∈ setIndices s.seenUnknowns :=
    fun e he v hv => mem_setIndices.2 (hclosed e (mem_setIndices.1 he) v hv)
  have hroots : ∀ e : Nat, matchEq[e]? = some none → e ∈ Finset.range incidence.nEq := fun e he =>
    Finset.mem_range.2 (hM.eq_length ▸ (List.getElem?_eq_some_iff.1 he).1)
  -- a free unknown would end an augmenting path
  have hmatched : ∀ v ∈ setIndices s.seenUnknowns, ∃ e ∈ setIndices s.seenEquations, matchVar[v]? = some (some e) := by
    intro v hv
    obtain ⟨⟨e, he, hev⟩, howner⟩ := hinv.unknown v (mem_setIndices.1 hv)
    obtain ⟨root, k, hroot, hpath⟩ := hinv.reached e he
    obtain ⟨owner, ho⟩ := hM.maximum.owned hM.isMatching (hroots root hroot) (by simp [hroot]) hpath hev
    have ho' : matchVar[v]? = some (some owner) := (hM.inverse owner v).1 (Option.join_eq_some_iff.1 ho)
    exact ⟨owner, mem_setIndices.2 (howner owner ho'), ho'⟩
  refine ⟨s, _, hrun, by rw [overDeterminedBlock, hrun]; rfl, rfl, rfl, hrows, hmatched, ?_⟩
  have hcard := card_of_closure (Z := (setIndices s.seenEquations).toFinset) (U := (setIndices s.seenUnknowns).toFinset)
    (s := Finset.range incidence.nEq) hM.isMatching
    (fun e he => by
      have hlt := (List.getElem?_eq_some_iff.1 (mem_setIndices.1 (List.mem_toFinset.1 he))).1
      exact Finset.mem_range.2 (hinv.equations_length ▸ hlt))
    (fun e he v hv => List.mem_toFinset.2 (hrows e (List.mem_toFinset.1 he) v hv))
    (fun v hv => by
      obtain ⟨e, he, hev⟩ := hmatched v (List.mem_toFinset.1 hv)
      exact ⟨e, List.mem_toFinset.2 he, Option.join_eq_some_iff.2 ((hM.inverse e v).2 hev)⟩)
    (fun e he hnone => by
      have hlt : e < matchEq.length := hM.eq_length ▸ Finset.mem_range.1 he
      refine List.mem_toFinset.2 (mem_setIndices.2 (hinv.unmatched e ?_))
      rw [List.getElem?_eq_getElem hlt, Option.join_some] at hnone
      rw [List.getElem?_eq_getElem hlt, hnone])
  have hunmatched : ((Finset.range incidence.nEq).filter fun e : Nat => (matchEq[e]?).join = none) =
      (unmatchedEquations matchEq).toFinset := by
    ext e
    rw [Finset.mem_filter, Finset.mem_range, List.mem_toFinset, mem_unmatchedEquations, ← hM.eq_length]
    refine ⟨fun ⟨hlt, hnone⟩ => ?_, fun h => ⟨(List.getElem?_eq_some_iff.1 h).1, by simp [h]⟩⟩
    rw [List.getElem?_eq_getElem hlt, Option.join_some] at hnone
    rw [List.getElem?_eq_getElem hlt, hnone]
  rwa [hunmatched, List.toFinset_card_of_nodup (nodup_setIndices _), List.toFinset_card_of_nodup (nodup_setIndices _),
    List.toFinset_card_of_nodup (nodup_unmatchedEquations _)] at hcard

/-- Three equations over two unknowns and one over a third. -/
def crowdedIncidence : Incidence where
  nEq := 4
  nVar := 3
  eqUnknowns := ⟨[[0], [0, 1], [1], [2]], by decide⟩
  unknowns := [.Algebraic 0 0, .Algebraic 1 0, .Algebraic 2 0]
  equationRefs := [⟨0⟩, ⟨1⟩, ⟨2⟩, ⟨3⟩]
  structuredMatching := []
  ownerFirstRow := [0, 1, 2, 3, 4]
  rows_len := rfl
  unknowns_len := rfl
  refs_eq := rfl
  columns_lt := by
    intro equation unknown h
    rcases Nat.lt_or_ge equation 4 with he | he
    · have hsmall : ∀ e < 4, ∀ v ∈ IncidenceRows.row ⟨[[0], [0, 1], [1], [2]], by decide⟩ e, v < 3 := by decide
      exact hsmall equation he unknown h
    · rw [IncidenceRows.row_eq_nil (by simpa [IncidenceRows.len] using he)] at h
      cases h

example : overDeterminedBlock crowdedIncidence [some 0, some 1, none, some 2] [some 0, some 1, some 3] =
    some ⟨3, 2, ["f_x[0]", "f_x[1]", "f_x[2]"]⟩ := by decide

theorem overDeterminedBlock_crowded :
    ∃ s block, alternatingClosure crowdedIncidence [some 0, some 1, none, some 2] [some 0, some 1, some 3] = some s ∧
      overDeterminedBlock crowdedIncidence [some 0, some 1, none, some 2] [some 0, some 1, some 3] = some block ∧
      block.equations = (setIndices s.seenEquations).length ∧ block.unknowns = (setIndices s.seenUnknowns).length ∧
      (∀ e ∈ setIndices s.seenEquations, ∀ v ∈ crowdedIncidence.eqUnknowns.row e, v ∈ setIndices s.seenUnknowns) ∧
      (∀ v ∈ setIndices s.seenUnknowns, ∃ e ∈ setIndices s.seenEquations,
        ([some 0, some 1, some 3] : List (Option Nat))[v]? = some (some e)) ∧
      block.equations = block.unknowns + (unmatchedEquations [some 0, some 1, none, some 2]).length := by
  refine overDeterminedBlock_spec crowdedIncidence _ _ ⟨rfl, rfl, fun e v => ?_, fun e v h => ?_, ?_⟩
  · rcases e with _ | _ | _ | _ | e <;> rcases v with _ | _ | _ | v <;> simp
  · have hown : ∀ e < 4, ∀ v < 3, ([some 0, some 1, none, some 2] : List (Option Nat))[e]? = some (some v) →
        v ∈ crowdedIncidence.eqUnknowns.row e := by decide
    have he : e < 4 := (List.getElem?_eq_some_iff.1 h).1
    have hv : v < 3 := by rcases e with _ | _ | _ | _ | e <;> simp at h <;> omega
    exact hown e he v hv h
  · -- a matching has no more than the three unknowns
    intro m hm
    have hle := card_matched_le_min (s := Finset.range 4) (t := Finset.range 3) hm fun e _ v hv =>
      Finset.mem_range.2 (crowdedIncidence.columns_lt e v (hm.edge e v hv))
    exact hle.trans (by decide)

end Rumoca.Structural
