import Rumoca.Structural.EqualitiesRounds
/-!
# What the residuals assert

The operands of an additive residual name variables of the model. Reading the
residuals collects pins, deferred balances and the closure of the edges they
assert, all settled by which residuals there are, not by their order.
-/

namespace Rumoca.DaeTransform

open Rumoca.Dae Rumoca.Lib SignedClasses

/-! ## The operands of a residual -/

section Flatten

variable {view : DaeView} {staticOne : Expr → Bool} {P : AdditiveOperands → Prop}

/-- A property of operands that holds of each leaf and of joined operands. -/
structure LeafClosed (view : DaeView) (P : AdditiveOperands → Prop) : Prop where
  append : ∀ a b, P a → P b → P (a.append b)
  var : ∀ id negated var, view.vars[id]? = some var → isRealPayload var = true → P ⟨[(id, negated)], []⟩
  invariant : ∀ e negated, e.isWholeModel = true → isTimeInvariant e = true → P ⟨[], [⟨e, negated, isZeroLiteral e⟩]⟩

theorem LeafClosed.pushVariable (hP : LeafClosed view P) {id : Nat} {negated : Bool} {o : AdditiveOperands}
    (h : pushVariable view id negated = some o) : P o := by
  unfold DaeTransform.pushVariable at h
  split at h
  · next var hv =>
    split at h
    · next hreal =>
      cases h
      exact hP.var id negated var hv hreal
    · cases h
  · cases h

theorem LeafClosed.pushInvariant (hP : LeafClosed view P) {e : Expr} {negated : Bool} (he : e.isWholeModel = true)
    {o : AdditiveOperands} (h : pushInvariant e negated = some o) : P o := by
  unfold DaeTransform.pushInvariant at h
  split at h
  · next hti =>
    cases h
    exact hP.invariant e negated he hti
  · cases h

theorem projectsSingleton_spec {id : Nat} {ss : List Subscript} (h : projectsSingleton view staticOne id ss = true) :
    ∃ var, view.vars[id]? = some var ∧ isRealPayload var = true ∧ var.scalarCount = 1 ∧
      ss.length = var.dimensions.length ∧ ∀ s ∈ ss, isStaticOneSubscript staticOne s = true := by
  unfold projectsSingleton at h
  split at h
  · simp at h
  · next var hvar =>
    simp only [isSingleScalarRealPayload, Bool.and_eq_true, Bool.not_eq_true', beq_iff_eq, List.all_eq_true] at h
    refine ⟨var, hvar, ?_, h.2.1.1.2.2, h.2.1.2, h.2.2⟩
    rw [isRealPayload, h.2.1.1.2.1, h.2.1.1.2.2]
    rfl

theorem singletonRealProjection_spec {e : Expr} {id : Nat}
    (h : singletonRealProjection view staticOne e = some (.state id) ∨
      singletonRealProjection view staticOne e = some (.algebraic id)) :
    ∃ ss, (e = .index (.coordinate (.state id)) ss ∨ e = .index (.coordinate (.algebraic id)) ss) ∧
      projectsSingleton view staticOne id ss = true := by
  unfold singletonRealProjection at h
  split at h
  · next id' ss =>
    split at h
    · next hp =>
      rcases h with h | h <;> cases h
      exact ⟨ss, .inl rfl, hp⟩
    · rcases h with h | h <;> cases h
  · next id' ss =>
    split at h
    · rcases h with h | h <;> cases h
    · rcases h with h | h <;> cases h
  · next id' ss =>
    split at h
    · next hp =>
      rcases h with h | h <;> cases h
      exact ⟨ss, .inr rfl, hp⟩
    · rcases h with h | h <;> cases h
  · rcases h with h | h <;> cases h

mutual

theorem flattenAdditive_spec (hP : LeafClosed view P) (e : Expr) (negated : Bool) (o : AdditiveOperands)
    (h : flattenAdditive view staticOne e negated = some o) : P o := by
  have hfall : (if e.isWholeModel then pushInvariant e negated else none) = some o → P o := by
    intro h
    split at h
    · next he => exact hP.pushInvariant he h
    · cases h
  cases e with
  | unary op a =>
    cases op with
    | plus =>
      simp only [flattenAdditive] at h
      split at h
      · exact flattenAdditive_spec hP a negated o h
      · cases h
    | negate =>
      simp only [flattenAdditive] at h
      split at h
      · exact flattenAdditive_spec hP a (!negated) o h
      · cases h
    | not => exact hfall (by simpa only [flattenAdditive] using h)
  | binary op a b =>
    cases op with
    | add | subtract =>
      simp only [flattenAdditive] at h
      split at h
      · obtain ⟨oa, ha, h⟩ := Option.bind_eq_some_iff.1 h
        obtain ⟨ob, hb, h⟩ := Option.bind_eq_some_iff.1 h
        cases h
        exact hP.append oa ob (flattenAdditive_spec hP a _ oa ha) (flattenAdditive_spec hP b _ ob hb)
      · cases h
    | _ => exact hfall (by simpa only [flattenAdditive] using h)
  | coordinate c =>
    cases c with
    | state id | algebraic id =>
      simp only [flattenAdditive] at h
      exact hP.pushVariable h
    | _ => exact hfall (by simpa only [flattenAdditive] using h)
  | index a ss =>
    simp only [flattenAdditive] at h
    split at h
    · split at h
      · next id hp =>
        cases h
        obtain ⟨ss', -, hproj⟩ := singletonRealProjection_spec (.inl hp)
        obtain ⟨var, hv, hreal, -⟩ := projectsSingleton_spec hproj
        exact hP.var id negated var hv hreal
      · next id hp =>
        cases h
        obtain ⟨ss', -, hproj⟩ := singletonRealProjection_spec (.inr hp)
        obtain ⟨var, hv, hreal, -⟩ := projectsSingleton_spec hproj
        exact hP.var id negated var hv hreal
      · cases h
    · cases h
  | call f output as =>
    simp only [flattenAdditive] at h
    split at h
    · next he =>
      split at h
      · next operands hforward =>
        obtain ⟨ordinal, -, hget⟩ := Option.bind_eq_some_iff.1 hforward
        exact flattenEach_spec hP as negated o (List.mem_of_getElem? (h ▸ hget))
      · exact hP.pushInvariant he h
    · cases h
  | _ => exact hfall (by simpa only [flattenAdditive] using h)

theorem flattenEach_spec (hP : LeafClosed view P) (as : List Expr) (negated : Bool) (o : AdditiveOperands)
    (h : some o ∈ flattenEach view staticOne as negated) : P o := by
  cases as with
  | nil => simp [flattenEach] at h
  | cons a as =>
    simp only [flattenEach, List.mem_cons] at h
    rcases h with h | h
    · exact flattenAdditive_spec hP a negated o h.symm
    · exact flattenEach_spec hP as negated o h

end

end Flatten

/-! ## Reading the residuals -/

section Collect

variable {view : DaeView} {staticOne : Expr → Bool}

theorem additiveOperands_lt {e : Expr} {o : AdditiveOperands} (h : additiveOperands view staticOne e = some o) :
    ∀ p ∈ o.vars, p.1 < view.vars.length := by
  have hleaf : LeafClosed view fun o => ∀ p ∈ o.vars, p.1 < view.vars.length := by
    refine ⟨fun a b ha hb p hp => ?_, fun id negated var hvar _ p hp => ?_, fun e negated _ _ p hp => ?_⟩
    · rcases List.mem_append.1 hp with hp | hp
      · exact ha p hp
      · exact hb p hp
    · obtain rfl := List.mem_singleton.1 hp
      exact (List.getElem?_eq_some_iff.1 hvar).1
    · cases hp
  exact flattenAdditive_spec hleaf e false o h

def asserted (view : DaeView) (staticOne : Expr → Bool) (residual : ExprId) :
    Option (AdditiveOperands × Option AssertedEquality) :=
  (additiveOperands view staticOne residual.expression).map fun o => (o, o.classify view residual.index)

def assertedPin (view : DaeView) (staticOne : Expr → Bool) (residual : ExprId) : Option (Nat × EqualityAnchor) :=
  match asserted view staticOne residual with
  | some (_, some (.pinned id anchor)) => some (id, anchor)
  | _ => none

def deferredBalance (view : DaeView) (staticOne : Expr → Bool) (residual : ExprId) : Option AdditiveOperands :=
  match asserted view staticOne residual with
  | some (o, none) => some o
  | _ => none

def assertedEdge (view : DaeView) (staticOne : Expr → Bool) (residual : ExprId) : Option InferredEqualityEdge :=
  match asserted view staticOne residual with
  | some (_, some (.aliased left right opposite displaced)) => some ⟨left, right, opposite, displaced⟩
  | _ => none

/-- The residuals have been read. -/
structure Collects (view : DaeView) (staticOne : Expr → Bool) (residuals : List ExprId) (s : Collected) : Prop where
  closes : Closes view.vars.length (residuals.filterMap (assertedEdge view staticOne)) s.equalities
  pinned : s.pinned = residuals.filterMap (assertedPin view staticOne)
  deferred : s.deferred = residuals.filterMap (deferredBalance view staticOne)

theorem classify_aliased_lt {o : AdditiveOperands} {residual left right : Nat} {opposite displaced : Bool}
    (h : o.classify view residual = some (.aliased left right opposite displaced)) :
    left < view.vars.length ∧ right < view.vars.length := by
  unfold AdditiveOperands.classify at h
  split at h
  · split at h
    · next hsame =>
      cases h
      rw [Bool.and_eq_true, sameRealPayload] at hsame
      cases hl : view.vars[left]? with
      | none => simp [hl] at hsame
      | some l =>
        cases hr : view.vars[right]? with
        | none => simp [hl, hr] at hsame
        | some r => exact ⟨(List.getElem?_eq_some_iff.1 hl).1, (List.getElem?_eq_some_iff.1 hr).1⟩
    · cases h
  · cases h
  · cases h

theorem Collects.step {residuals : List ExprId} {s : Collected} (h : Collects view staticOne residuals s)
    (residual : ExprId) : Collects view staticOne (residuals ++ [residual]) (collectResidual view staticOne s residual) := by
  obtain ⟨hcloses, hpinned, hdeferred⟩ := h
  unfold collectResidual
  cases ho : additiveOperands view staticOne residual.expression with
  | none =>
    have hnone : asserted view staticOne residual = none := by simp [asserted, ho]
    exact ⟨by simpa [assertedEdge, hnone] using hcloses, by simp [assertedPin, hnone, hpinned],
      by simp [deferredBalance, hnone, hdeferred]⟩
  | some o =>
    have hsome : asserted view staticOne residual = some (o, o.classify view residual.index) := by simp [asserted, ho]
    cases hc : o.classify view residual.index with
    | none =>
      rw [hc] at hsome
      exact ⟨by simpa [assertedEdge, hsome, hc] using hcloses, by simp [assertedPin, hsome, hc, hpinned],
        by simp [deferredBalance, hsome, hc, hdeferred]⟩
    | some assertion =>
      rw [hc] at hsome
      cases assertion with
      | aliased left right opposite displaced =>
        obtain ⟨hl, hr⟩ := classify_aliased_lt hc
        have hstep := (hcloses.alias_ (e := ⟨left, right, opposite, displaced⟩) hl hr).closes
        exact ⟨by simpa [assertedEdge, hsome, hc] using hstep, by simp [assertedPin, hsome, hc, hpinned],
          by simp [deferredBalance, hsome, hc, hdeferred]⟩
      | pinned id anchor =>
        exact ⟨by simpa [assertedEdge, hsome, hc] using hcloses, by simp [assertedPin, hsome, hc, hpinned],
          by simp [deferredBalance, hsome, hc, hdeferred]⟩

theorem collects (view : DaeView) (staticOne : Expr → Bool) (residuals : List ExprId) :
    Collects view staticOne residuals (residuals.foldl (collectResidual view staticOne)
      ⟨⟨.new view.vars.length, .new view.vars.length, view.vars.map (·.role == .state)⟩, [], []⟩) :=
  foldl_inv (Collects view staticOne) (fun _ residual _ _ _ h => h.step residual)
    ⟨⟨represents_new _, represents_new _⟩, rfl, rfl⟩

/-! ## The candidates -/

theorem stateCandidates_spec {p : Nat × EqualityAnchor} (h : p ∈ stateCandidates view staticOne) :
    p.1 < view.vars.length ∧ p.2 = .state p.1 := by
  obtain ⟨⟨var, id⟩, hmem, h⟩ := List.mem_filterMap.1 h
  simp only at h
  split_ifs at h
  obtain rfl := Option.some.inj h
  exact ⟨(List.getElem?_eq_some_iff.1 (List.mem_zipIdx_iff_getElem?.1 hmem)).1, rfl⟩

theorem assertedPin_spec {residual : ExprId} {p : Nat × EqualityAnchor}
    (h : assertedPin view staticOne residual = some p) :
    p.1 < view.vars.length ∧ ∃ value zero, p.2 = .invariant value zero residual.index := by
  unfold assertedPin asserted at h
  cases ho : additiveOperands view staticOne residual.expression with
  | none => simp [ho] at h
  | some o =>
    have hlt := additiveOperands_lt ho
    simp only [ho, Option.map_some, AdditiveOperands.classify] at h
    split at h
    · next heq =>
      have hclass := (Prod.mk.inj (Option.some.inj heq)).2
      obtain rfl := Option.some.inj h
      split at hclass
      · split at hclass
        · cases hclass
        · cases hclass
      · next hvars =>
        cases hclass
        exact ⟨hlt _ (by rw [hvars]; exact List.mem_singleton_self _), _, _, rfl⟩
      · cases hclass
    · cases h

theorem anchorKey_ordinal {a b : EqualityAnchor} (h : anchorKey view a = anchorKey view b) :
    anchorRank view a = anchorRank view b ∧ anchorOrdinal a = anchorOrdinal b := by
  simp only [anchorKey, toLex_inj, Prod.mk.injEq, OrderDual.toDual_inj] at h
  exact ⟨Prod.ext h.1 (Prod.ext h.2.1 h.2.2.1), h.2.2.2⟩

theorem anchorRank_state_ne (s : Nat) (value : Option Expr) (zero : Bool) (ordinal : Nat) :
    anchorRank view (.state s) ≠ anchorRank view (.invariant value zero ordinal) := by
  intro h
  have hfirst := congrArg Prod.fst h
  simp only [anchorRank] at hfirst
  split at hfirst
  · simp at hfirst
  · next var _ => cases hselect : var.stateSelect <;> simp [hselect, StateSelect.rank] at hfirst

theorem candidate_cases {residuals : List ExprId} {p : Nat × EqualityAnchor}
    (hp : p ∈ anchorCandidates view staticOne (residuals.filterMap (assertedPin view staticOne))) :
    p ∈ stateCandidates view staticOne ∨ ∃ r ∈ residuals, assertedPin view staticOne r = some p :=
  (List.mem_append.1 hp).imp id List.mem_filterMap.1

theorem candidate_lt {residuals : List ExprId} {p : Nat × EqualityAnchor}
    (hp : p ∈ anchorCandidates view staticOne (residuals.filterMap (assertedPin view staticOne))) :
    p.1 < view.vars.length := by
  rcases candidate_cases hp with hp | ⟨r, -, hp⟩
  · exact (stateCandidates_spec hp).1
  · exact (assertedPin_spec hp).1

/-- Residuals with distinct identities give candidates that never compete by the same key. -/
theorem candidatesDistinct {residuals : List ExprId}
    (hid : ∀ r ∈ residuals, ∀ r' ∈ residuals, r.index = r'.index → r = r') :
    CandidatesDistinct view view.vars.length
      (anchorCandidates view staticOne (residuals.filterMap (assertedPin view staticOne))) := by
  refine ⟨fun _ => candidate_lt, fun w s hp => ?_, fun p hp q hq hkey => ?_⟩
  · rcases candidate_cases hp with hp | ⟨r, -, hp⟩
    · exact EqualityAnchor.state.inj (stateCandidates_spec hp).2
    · obtain ⟨-, value, zero, heq⟩ := assertedPin_spec hp
      cases heq
  · obtain ⟨hrank, hordinal⟩ := anchorKey_ordinal hkey
    rcases candidate_cases hp with hp | ⟨r, hr, hp⟩
    · have hp := (stateCandidates_spec hp).2
      rcases candidate_cases hq with hq | ⟨r', -, hq⟩
      · have hq := (stateCandidates_spec hq).2
        rw [hp, hq] at hordinal
        exact Prod.ext hordinal (by rw [hp, hq]; exact congrArg _ hordinal)
      · obtain ⟨-, value, zero, hq⟩ := assertedPin_spec hq
        rw [hp, hq] at hrank
        exact absurd hrank (anchorRank_state_ne _ _ _ _)
    · obtain ⟨-, value, zero, heq⟩ := assertedPin_spec hp
      rcases candidate_cases hq with hq | ⟨r', hr', hq⟩
      · rw [heq, (stateCandidates_spec hq).2] at hrank
        exact absurd hrank.symm (anchorRank_state_ne _ _ _ _)
      · -- two pins with one ordinal are of one residual
        obtain ⟨-, value', zero', heq'⟩ := assertedPin_spec hq
        rw [heq, heq'] at hordinal
        rw [hid r hr r' hr' hordinal] at hp
        exact Option.some.inj (hp.symm.trans hq)

/-! ## Any order of the model -/

mutual

theorem flattenAdditive_owners (owners : List ContinuousOwner) (e : Expr) (negated : Bool) :
    flattenAdditive { view with continuousOwners := owners } staticOne e negated =
      flattenAdditive view staticOne e negated := by
  cases e with
  | unary op a => cases op <;> simp only [flattenAdditive, flattenAdditive_owners owners a]
  | binary op a b =>
    cases op <;> simp only [flattenAdditive, flattenAdditive_owners owners a, flattenAdditive_owners owners b]
  | coordinate c => cases c <;> simp only [flattenAdditive] <;> rfl
  | index a ss =>
    simp only [flattenAdditive]
    rfl
  | call f output as =>
    simp only [flattenAdditive, flattenEach_owners owners as]
    rfl
  | _ => simp only [flattenAdditive]

theorem flattenEach_owners (owners : List ContinuousOwner) (as : List Expr) (negated : Bool) :
    flattenEach { view with continuousOwners := owners } staticOne as negated =
      flattenEach view staticOne as negated := by
  cases as with
  | nil => simp only [flattenEach]
  | cons a as => simp only [flattenEach, flattenAdditive_owners owners a, flattenEach_owners owners as]

end

theorem collectResidual_owners (view : DaeView) (staticOne : Expr → Bool) (owners : List ContinuousOwner) :
    collectResidual { view with continuousOwners := owners } staticOne = collectResidual view staticOne := by
  funext s residual
  simp only [collectResidual, additiveOperands, flattenAdditive_owners]
  rfl

theorem Collects.sameAnchors {residuals residuals' : List ExprId} {s s' : Collected}
    {deferred deferred' : List AdditiveOperands} (hs : Collects view staticOne residuals s)
    (hs' : Collects view staticOne residuals' s') (hperm : residuals.Perm residuals')
    (hid : ∀ r ∈ residuals, ∀ r' ∈ residuals, r.index = r'.index → r = r') (hdeferred : deferred.Perm s.deferred)
    (hdeferred' : deferred'.Perm s'.deferred) :
    SameAnchors
      (closeInvariantBalances view staticOne (resolveAnchors view staticOne s.equalities s.pinned) deferred s.pinned)
      (closeInvariantBalances view staticOne (resolveAnchors view staticOne s'.equalities s'.pinned) deferred'
        s'.pinned) := by
  have hmem : ∀ {T : Type} (f : ExprId → Option T) (x : T), x ∈ residuals.filterMap f ↔ x ∈ residuals'.filterMap f :=
    fun f _ => (hperm.filterMap f).mem_iff
  have hpinned : ∀ p, p ∈ s.pinned ↔ p ∈ s'.pinned := by
    rw [hs.pinned, hs'.pinned]
    exact hmem _
  have hbalances : ∀ o, o ∈ deferred ↔ o ∈ deferred' := by
    intro o
    rw [hdeferred.mem_iff, hdeferred'.mem_iff, hs.deferred, hs'.deferred]
    exact hmem _ o
  have hdistinct : CandidatesDistinct view view.vars.length (anchorCandidates view staticOne s.pinned) := by
    rw [hs.pinned]
    exact candidatesDistinct hid
  have hdistinct' := hdistinct.of_mem_iff (mem_anchorCandidates_iff view staticOne hpinned)
  have hedges : SameClosure (residuals.filterMap (assertedEdge view staticOne))
      (residuals'.filterMap (assertedEdge view staticOne)) :=
    SameClosure.append (⟨fun _ _ _ => Iff.rfl, fun _ _ _ => Iff.rfl⟩ : SameClosure [] []) (hmem _)
  have hrun : SameRun view staticOne s.pinned s'.pinned (resolveAnchors view staticOne s.equalities s.pinned)
      (resolveAnchors view staticOne s'.equalities s'.pinned) :=
    ⟨_, _, hs.closes.resolveAnchors hdistinct.lt, hs'.closes.resolveAnchors hdistinct'.lt, hedges⟩
  exact (hrun.closeInvariantBalances hdistinct hpinned hbalances).sameAnchors hdistinct hpinned

/-- Every order of the continuous owners and of the deferred balances gives every variable the same anchors. -/
theorem collectWithDeferredEnumeration_sameAnchors (view : DaeView) (staticOne : Expr → Bool)
    (owners : List ContinuousOwner) (perturb perturb' : List AdditiveOperands → List AdditiveOperands)
    (hid : ∀ r ∈ equalityResiduals view.continuousOwners, ∀ r' ∈ equalityResiduals view.continuousOwners,
      r.index = r'.index → r = r')
    (howners : owners.Perm view.continuousOwners) (hperturb : ∀ l, (perturb l).Perm l)
    (hperturb' : ∀ l, (perturb' l).Perm l) :
    SameAnchors (collectWithDeferredEnumeration view staticOne perturb)
      (collectWithDeferredEnumeration { view with continuousOwners := owners } staticOne perturb') := by
  unfold collectWithDeferredEnumeration
  rw [collectResidual_owners view staticOne owners]
  exact (collects view staticOne _).sameAnchors (collects view staticOne _) (howners.symm.flatMap_right _) hid
    (hperturb _) (hperturb' _)

def BalancesClosed (view : DaeView) (staticOne : Expr → Bool) (eq : SystemEqualities) : Prop :=
  ∀ r ∈ equalityResiduals view.continuousOwners, ∀ o, deferredBalance view staticOne r = some o →
    ∀ e, o.aliasAfterInvariantElimination view eq = some e →
      (eq.alias_ e.left e.right e.opposite e.displaced).2 = false

theorem Collects.closed {residuals : List ExprId} {s : Collected} {deferred : List AdditiveOperands}
    (hs : Collects view staticOne residuals s) {o : AdditiveOperands} (ho : o ∈ deferred) {e : InferredEqualityEdge}
    (he : o.aliasAfterInvariantElimination view (closeInvariantBalances view staticOne
      (resolveAnchors view staticOne s.equalities s.pinned) deferred s.pinned) = some e) :
    ((closeInvariantBalances view staticOne (resolveAnchors view staticOne s.equalities s.pinned) deferred
      s.pinned).alias_ e.left e.right e.opposite e.displaced).2 = false := by
  have hc : ∀ p ∈ anchorCandidates view staticOne s.pinned, p.1 < view.vars.length := by
    rw [hs.pinned]
    exact fun _ => candidate_lt
  have hsettled := hs.closes.resolveAnchors hc
  obtain ⟨es, hes⟩ := closeInvariantBalances_settled deferred hsettled hc
  have hquiet := closeInvariantBalances_closed deferred hsettled hc
  have hinferred : e ∈ inferredEdges view deferred (closeInvariantBalances view staticOne
      (resolveAnchors view staticOne s.equalities s.pinned) deferred s.pinned) := List.mem_filterMap.2 ⟨o, ho, he⟩
  have himplied : Implied es e := by
    by_contra hnew
    have hchanged := (hes.closeRound deferred hc).changed_iff.2 ⟨e, hinferred, hnew⟩
    exact Bool.false_ne_true (hquiet.symm.trans hchanged)
  obtain ⟨hl, hr⟩ := inferredEdges_lt hinferred
  refine Bool.eq_false_iff.2 fun hchanged => ?_
  obtain ⟨e', he', hnew⟩ := (hes.closes.alias_ hl hr).changed_iff.1 hchanged
  rw [List.mem_singleton.1 he'] at hnew
  exact hnew himplied

/-- The rounds allowed are enough to close the balances in any order. -/
theorem collectWithDeferredEnumeration_closed (view : DaeView) (staticOne : Expr → Bool)
    (perturb : List AdditiveOperands → List AdditiveOperands) (hperturb : ∀ l, (perturb l).Perm l) :
    BalancesClosed view staticOne (collectWithDeferredEnumeration view staticOne perturb) := by
  intro r hr o ho e he
  have hs := collects view staticOne (equalityResiduals view.continuousOwners)
  refine hs.closed ((hperturb _).mem_iff.2 ?_) he
  rw [hs.deferred]
  exact List.mem_filterMap.2 ⟨r, hr, ho⟩

end Collect

/-! ## A chain of variables -/

/-- A state and two algebraic variables, all Real scalars, with a balance of all three. -/
def chainModel : DaeView where
  domains := []
  vars := [⟨.state, .default, .real, [], none⟩, ⟨.algebraic, .default, .real, [], none⟩,
    ⟨.algebraic, .default, .real, [], none⟩]
  functions := []
  expressions := [.coordinate (.state 0), .coordinate (.algebraic 1), .coordinate (.algebraic 2)]
  continuousOwners :=
    [.residual ⟨3, .binary .subtract (.coordinate (.algebraic 1)) (.coordinate (.state 0))⟩,
      .residual ⟨4, .binary .add (.coordinate (.algebraic 2)) (.coordinate (.algebraic 1))⟩,
      .residual ⟨5, .binary .add (.coordinate (.state 0))
        (.binary .add (.coordinate (.algebraic 2)) (.coordinate (.algebraic 1)))⟩]

theorem collectWithDeferredEnumeration_sameAnchors_chainModel :
    SameAnchors (collectWithDeferredEnumeration chainModel (fun _ => false) id)
        (collectWithDeferredEnumeration { chainModel with continuousOwners := chainModel.continuousOwners.reverse }
          (fun _ => false) List.reverse) := by
  refine collectWithDeferredEnumeration_sameAnchors chainModel (fun _ => false) _ id List.reverse ?_
    (List.reverse_perm _) (fun l => List.Perm.refl l) List.reverse_perm
  intro r hr r' hr' heq
  simp only [chainModel, equalityResiduals, List.flatMap_cons, List.flatMap_nil, List.append_nil, List.mem_append,
    List.mem_singleton] at hr hr'
  rcases hr with rfl | rfl | rfl <;> rcases hr' with rfl | rfl | rfl <;> first | rfl | cases heq

theorem collectWithDeferredEnumeration_closed_chainModel :
    BalancesClosed chainModel (fun _ => false)
      (collectWithDeferredEnumeration chainModel (fun _ => false) List.reverse) :=
  collectWithDeferredEnumeration_closed chainModel (fun _ => false) List.reverse List.reverse_perm

end Rumoca.DaeTransform
