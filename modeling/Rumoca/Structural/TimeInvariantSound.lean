import Rumoca.Structural.TimeInvariant
/-!
# Time invariance is sound where the families reach every element

On a trajectory that satisfies the continuous equations, every variable marked
by `TimeInvariance` is constant in each element, and every accepted expression
is constant at fixed binder values, provided that a structured family that
gives a resolved variable its value reaches each element of it.
`familyElementDefinition` does not check that it does, and `partialFamily` is a
model where it does not.
-/

namespace Rumoca.DaeTransform

open Rumoca.Dae Rumoca.Lib

section Trajectories

variable {T R : Type} [CommRing R] [Algebra ℚ R]

/-! ## Functions of their arguments

A body is run with an oracle for the functions it calls, and a call returns what
its body returns at some depth of calls. -/

open Classical in
/-- The first value of a sequence of approximations. -/
noncomputable def firstValue {α : Type} (approximations : Nat → Option α) : Option α :=
  if h : ∃ n, (approximations n).isSome then approximations (Nat.find h) else none

/-- What the function bodies compute at each time: a body that is not an impure
external is the same function of its arguments at every time, and reads the
functions it calls only. -/
structure FunctionBodies (view : DaeView) (T R : Type) where
  run : T → Nat → (Nat → Nat → List (Value R) → Option (Value R)) → Nat → List (Value R) → Option (Value R)
  fixed : ∀ (f : Nat) function, view.functions[f]? = some function → declaredPure function = true →
    ∀ t t' oracle oracle', (∀ g ∈ functionCallees function, oracle g = oracle' g) → run t f oracle = run t' f oracle'

namespace FunctionBodies

variable {view : DaeView} (bodies : FunctionBodies view T R)

/-- What a call returns with calls nested less than `depth` deep. -/
def returns (t : T) : (depth : Nat) → Nat → Nat → List (Value R) → Option (Value R)
  | 0 => fun _ _ _ => none
  | depth + 1 => fun f => bodies.run t f (returns t depth)

noncomputable def call (t : T) (f output : Nat) (args : List (Value R)) : Option (Value R) :=
  firstValue fun depth => bodies.returns t depth f output args

end FunctionBodies

/-- The continuous equations hold at every time, the causal definitions among
them, and calls return what the function bodies compute. -/
structure Satisfies (view : DaeView) (causal : CausalDefinitions) (ops : Operations R) (bodies : FunctionBodies view T R)
    (traj : Trajectory T R) : Prop where
  calls : ∀ t f, traj.call t f = bodies.call t f
  typed : ∀ t, ContinuousTyped view (traj.closed t)
  owners : ∀ t, ∀ owner ∈ view.continuousOwners, OwnerHolds view ops (traj.closed t) owner
  definitions : ∀ t id definition, causal.definitions id = some definition →
    traj.continuous t id = view.eval ops (traj.closed t) definition
  scalarDefinitions : ∀ t id scalar definition, causal.scalarDefinitions id scalar = some definition →
    traj.element t id scalar = (view.eval ops (traj.closed t) definition).bind (·.entryAt 0)

end Trajectories

/-! ## The condition -/

def algebraicReads (e : Expr) : List Nat := e.subexpressions.filterMap algebraicRead?
where
  algebraicRead? : Expr → Option Nat
    | .coordinate (.algebraic id) => some id
    | _ => none

def acceptedForm (view : DaeView) (e : Expr) : Bool :=
  expressionIsTimeInvariant ⟨List.replicate view.vars.length true, pureFunctions view⟩ e

/-- The variables whose definitions resolve, transitively, to parameters and constants. -/
inductive Resolves (view : DaeView) (causal : CausalDefinitions) : Nat → Prop
  | whole (id : Nat) (definition : Expr) (he : causal.definitions id = some definition)
      (hform : acceptedForm view definition = true) (hreads : ∀ y ∈ algebraicReads definition, Resolves view causal y) :
      Resolves view causal id
  | scalars (id : Nat) (var : DaeVariable) (hvar : view.vars[id]? = some var)
      (hfully : causal.fullyScalarDefined id = true) (definition : Nat → Expr)
      (he : ∀ k < var.scalarCount, causal.scalarDefinitions id k = some (definition k))
      (hform : ∀ k < var.scalarCount, acceptedForm view (definition k) = true)
      (hreads : ∀ k < var.scalarCount, ∀ y ∈ algebraicReads (definition k), Resolves view causal y) :
      Resolves view causal id
  | family (id : Nat) (value : Expr) (he : familyElementDefinitions view causal id = some value)
      (hform : acceptedForm view value = true) (hreads : ∀ y ∈ algebraicReads value, Resolves view causal y) :
      Resolves view causal id

def binderPositions (tuple : List Int) (subscripts : List Subscript) : List SubscriptValue :=
  subscripts.map fun
    | .index (.coordinate (.binder _ ordinal)) => .index (tuple.getD ordinal 0)
    | _ => .whole

/-- Some index tuple of the family's domain takes the binder subscripts of the
target to each of its elements. -/
def ReachesEveryElement (view : DaeView) (family : StructuredFamily) : Prop :=
  ∀ target subscripts base value var, familyElementAccess view family = some (target, .index base subscripts, value) →
    view.vars[target]? = some var → ∀ scalar < var.scalarCount, ∃ tuple ∈ view.points family.domain,
      Value.gather var.dimensions (binderPositions tuple subscripts) = some ([], [scalar])

def FamiliesReachEveryElement (view : DaeView) (causal : CausalDefinitions) : Prop :=
  ∀ family value target, .structured family ∈ view.continuousOwners →
    familyElementDefinition view family = some (target, value) →
    familyElementDefinitions view causal target = some value → Resolves view causal target →
    ReachesEveryElement view family

/-! ## Invariant expressions -/

section Congruence

variable {R : Type} [CommRing R] [Algebra ℚ R] {ops : Operations R} {points : Nat → List (List Int)}
  {extents : Nat → List Nat} {scope : InvarianceScope}

/-- Two environments that give what an accepted expression reads the same values. -/
structure Agree (scope : InvarianceScope) (env env' : Env R) : Prop where
  parameter : ∀ id, env.coordinate (.parameter id) = env'.coordinate (.parameter id)
  algebraic : ∀ id, scope.algebraics.getD id false = true →
    env.continuous id = env'.continuous id
  binder : env.binder = env'.binder
  call : ∀ f, scope.pureFunctions.getD f false = true → env.call f = env'.call f

omit [CommRing R] [Algebra ℚ R] in
theorem Agree.bind {env env' : Env R} (h : Agree scope env env') (domain : Nat) (tuple : List Int) :
    Agree scope (env.bind domain tuple) (env'.bind domain tuple) where
  parameter := h.parameter
  algebraic := h.algebraic
  binder := by
    funext d o
    simp only [Env.bind, h.binder]
  call := h.call

omit [Algebra ℚ R] in
theorem Agree.coordinate {env env' : Env R} (h : Agree scope env env') {c : Coordinate}
    (hc : coordinateIsTimeInvariant scope.algebraics c = true) : c.value env = c.value env' := by
  cases c with
  | parameter id => exact h.parameter id
  | algebraic id => exact h.algebraic id hc
  | binder domain ordinal => simp only [Coordinate.value, h.binder]
  | _ => cases hc

mutual

theorem eval_eq_of_invariant (e : Expr) (he : expressionIsTimeInvariant scope e = true) {env env' : Env R}
    (h : Agree scope env env') : e.eval ops points extents env = e.eval ops points extents env' := by
  cases e with
  | literal l => simp only [Expr.eval]
  | coordinate c =>
    simp only [Expr.eval]
    exact h.coordinate he
  | unary op a =>
    have ha := eval_eq_of_invariant a (by simpa only [expressionIsTimeInvariant] using he) h
    cases op <;> simp only [Expr.eval, ha]
  | binary op a b =>
    simp only [expressionIsTimeInvariant, Bool.and_eq_true] at he
    have ha := eval_eq_of_invariant a he.1 h
    have hb := eval_eq_of_invariant b he.2 h
    cases op <;> simp only [Expr.eval, ha, hb]
  | conditional as | array as | record as | builtin _ as =>
    have has := evalEach_eq_of_invariant as (by simpa only [expressionIsTimeInvariant] using he) h
    simp only [Expr.eval, has]
  | field a i =>
    have ha := eval_eq_of_invariant a (by simpa only [expressionIsTimeInvariant] using he) h
    simp only [Expr.eval, ha]
  | comprehension domain body =>
    have hbody : ∀ tuple, body.eval ops points extents (env.bind domain tuple) =
        body.eval ops points extents (env'.bind domain tuple) := fun tuple =>
      eval_eq_of_invariant body (by simpa only [expressionIsTimeInvariant] using he) (h.bind domain tuple)
    simp only [Expr.eval, hbody]
  | index a ss =>
    simp only [expressionIsTimeInvariant, Bool.and_eq_true] at he
    have ha := eval_eq_of_invariant a he.1 h
    have hss := evalSubscripts_eq_of_invariant ss he.2 h
    simp only [Expr.eval, ha, hss]
  | call f output as =>
    simp only [expressionIsTimeInvariant, Bool.and_eq_true] at he
    have has := evalEach_eq_of_invariant as he.2 h
    simp only [Expr.eval, has, h.call f he.1]
  | _ => simp [expressionIsTimeInvariant] at he

theorem evalEach_eq_of_invariant (as : List Expr) (has : allTimeInvariant scope as = true) {env env' : Env R}
    (h : Agree scope env env') : evalEach ops points extents as env = evalEach ops points extents as env' := by
  cases as with
  | nil => simp only [evalEach]
  | cons a as =>
    simp only [allTimeInvariant, Bool.and_eq_true] at has
    simp only [evalEach, eval_eq_of_invariant a has.1 h, evalEach_eq_of_invariant as has.2 h]

theorem evalSubscripts_eq_of_invariant (ss : List Subscript) (hss : subscriptsTimeInvariant scope ss = true)
    {env env' : Env R} (h : Agree scope env env') :
    evalSubscripts ops points extents ss env = evalSubscripts ops points extents ss env' := by
  cases ss with
  | nil => simp only [evalSubscripts]
  | cons s ss =>
    cases s with
    | whole =>
      simp only [subscriptsTimeInvariant] at hss
      simp only [evalSubscripts, evalSubscripts_eq_of_invariant ss hss h]
    | index a | slice a =>
      simp only [subscriptsTimeInvariant, Bool.and_eq_true] at hss
      simp only [evalSubscripts, eval_eq_of_invariant a hss.1 h, evalSubscripts_eq_of_invariant ss hss.2 h]

end

end Congruence

/-! ## Accepted forms and their reads -/

mutual

theorem algebraicRead_of_invariant {scope : InvarianceScope} {id : Nat} (e : Expr)
    (he : expressionIsTimeInvariant scope e = true) (hid : .coordinate (.algebraic id) ∈ e.subexpressions) :
    scope.algebraics.getD id false = true := by
  cases e with
  | literal l => simp [Expr.subexpressions] at hid
  | coordinate c =>
    simp only [Expr.subexpressions, List.mem_singleton, Expr.coordinate.injEq] at hid
    subst hid
    exact he
  | unary _ a | field a _ | comprehension _ a =>
    simp only [Expr.subexpressions, List.mem_cons, reduceCtorEq, false_or] at hid
    exact algebraicRead_of_invariant a (by simpa only [expressionIsTimeInvariant] using he) hid
  | binary _ a b =>
    simp only [expressionIsTimeInvariant, Bool.and_eq_true] at he
    simp only [Expr.subexpressions, List.mem_cons, reduceCtorEq, false_or, List.mem_append] at hid
    rcases hid with hid | hid
    · exact algebraicRead_of_invariant a he.1 hid
    · exact algebraicRead_of_invariant b he.2 hid
  | conditional as | array as | record as | builtin _ as =>
    simp only [Expr.subexpressions, List.mem_cons, reduceCtorEq, false_or] at hid
    exact algebraicRead_of_allInvariant as (by simpa only [expressionIsTimeInvariant] using he) hid
  | call _ _ as =>
    simp only [expressionIsTimeInvariant, Bool.and_eq_true] at he
    simp only [Expr.subexpressions, List.mem_cons, reduceCtorEq, false_or] at hid
    exact algebraicRead_of_allInvariant as he.2 hid
  | index a ss =>
    simp only [expressionIsTimeInvariant, Bool.and_eq_true] at he
    simp only [Expr.subexpressions, List.mem_cons, reduceCtorEq, false_or, List.mem_append] at hid
    rcases hid with hid | hid
    · exact algebraicRead_of_invariant a he.1 hid
    · exact algebraicRead_of_subscriptsInvariant ss he.2 hid
  | _ => simp [expressionIsTimeInvariant] at he

theorem algebraicRead_of_allInvariant {scope : InvarianceScope} {id : Nat} (as : List Expr)
    (has : allTimeInvariant scope as = true) (hid : .coordinate (.algebraic id) ∈ subexpressionsOfAll as) :
    scope.algebraics.getD id false = true := by
  cases as with
  | nil => simp [subexpressionsOfAll] at hid
  | cons a as =>
    simp only [allTimeInvariant, Bool.and_eq_true] at has
    simp only [subexpressionsOfAll, List.mem_append] at hid
    rcases hid with hid | hid
    · exact algebraicRead_of_invariant a has.1 hid
    · exact algebraicRead_of_allInvariant as has.2 hid

theorem algebraicRead_of_subscriptsInvariant {scope : InvarianceScope} {id : Nat} (ss : List Subscript)
    (hss : subscriptsTimeInvariant scope ss = true)
    (hid : .coordinate (.algebraic id) ∈ subexpressionsOfSubscripts ss) : scope.algebraics.getD id false = true := by
  cases ss with
  | nil => simp [subexpressionsOfSubscripts] at hid
  | cons s ss =>
    cases s with
    | whole =>
      simp only [subscriptsTimeInvariant] at hss
      simp only [subexpressionsOfSubscripts] at hid
      exact algebraicRead_of_subscriptsInvariant ss hss hid
    | index a | slice a =>
      simp only [subscriptsTimeInvariant, Bool.and_eq_true] at hss
      simp only [subexpressionsOfSubscripts, List.mem_append] at hid
      rcases hid with hid | hid
      · exact algebraicRead_of_invariant a hss.1 hid
      · exact algebraicRead_of_subscriptsInvariant ss hss.2 hid

end

theorem algebraicReads_of_invariant {scope : InvarianceScope} {e : Expr}
    (he : expressionIsTimeInvariant scope e = true) {id : Nat} (hid : id ∈ algebraicReads e) :
    scope.algebraics.getD id false = true := by
  obtain ⟨a, ha, hread⟩ := List.mem_filterMap.1 hid
  have : a = .coordinate (.algebraic id) := by
    unfold algebraicReads.algebraicRead? at hread
    split at hread
    · cases hread
      rfl
    · cases hread
  exact algebraicRead_of_invariant e he (this ▸ ha)

mutual

theorem invariant_mono {flags flags' : List Bool} {pure : List Bool}
    (h : ∀ id, flags.getD id false = true → flags'.getD id false = true) (e : Expr)
    (he : expressionIsTimeInvariant ⟨flags, pure⟩ e = true) : expressionIsTimeInvariant ⟨flags', pure⟩ e = true := by
  cases e with
  | literal l => cases l <;> exact he
  | coordinate c =>
    cases c with
    | algebraic id => exact h id he
    | _ => exact he
  | unary _ a | field a _ | comprehension _ a =>
    simp only [expressionIsTimeInvariant] at he ⊢
    exact invariant_mono h a he
  | binary _ a b =>
    simp only [expressionIsTimeInvariant, Bool.and_eq_true] at he ⊢
    exact ⟨invariant_mono h a he.1, invariant_mono h b he.2⟩
  | conditional as | array as | record as | builtin _ as =>
    simp only [expressionIsTimeInvariant] at he ⊢
    exact allInvariant_mono h as he
  | call f _ as =>
    simp only [expressionIsTimeInvariant, Bool.and_eq_true] at he ⊢
    exact ⟨he.1, allInvariant_mono h as he.2⟩
  | index a ss =>
    simp only [expressionIsTimeInvariant, Bool.and_eq_true] at he ⊢
    exact ⟨invariant_mono h a he.1, subscriptsInvariant_mono h ss he.2⟩
  | _ => simp [expressionIsTimeInvariant] at he

theorem allInvariant_mono {flags flags' : List Bool} {pure : List Bool}
    (h : ∀ id, flags.getD id false = true → flags'.getD id false = true) (as : List Expr)
    (has : allTimeInvariant ⟨flags, pure⟩ as = true) : allTimeInvariant ⟨flags', pure⟩ as = true := by
  cases as with
  | nil => simp only [allTimeInvariant]
  | cons a as =>
    simp only [allTimeInvariant, Bool.and_eq_true] at has ⊢
    exact ⟨invariant_mono h a has.1, allInvariant_mono h as has.2⟩

theorem subscriptsInvariant_mono {flags flags' : List Bool} {pure : List Bool}
    (h : ∀ id, flags.getD id false = true → flags'.getD id false = true) (ss : List Subscript)
    (hss : subscriptsTimeInvariant ⟨flags, pure⟩ ss = true) : subscriptsTimeInvariant ⟨flags', pure⟩ ss = true := by
  cases ss with
  | nil => simp only [subscriptsTimeInvariant]
  | cons s ss =>
    cases s with
    | whole =>
      simp only [subscriptsTimeInvariant] at hss ⊢
      exact subscriptsInvariant_mono h ss hss
    | index a | slice a =>
      simp only [subscriptsTimeInvariant, Bool.and_eq_true] at hss ⊢
      exact ⟨invariant_mono h a hss.1, subscriptsInvariant_mono h ss hss.2⟩

end

theorem acceptedForm_of_invariant {view : DaeView} {flags : List Bool} (hlen : flags.length = view.vars.length)
    {e : Expr} (he : expressionIsTimeInvariant ⟨flags, pureFunctions view⟩ e = true) : acceptedForm view e = true := by
  refine invariant_mono (fun id h => ?_) e he
  rw [List.getD_eq_getElem?_getD] at h ⊢
  have hid : id < view.vars.length := by
    rw [← hlen]
    by_contra hge
    rw [List.getElem?_eq_none (by omega)] at h
    cases h
  rw [List.getElem?_replicate, if_pos hid]
  rfl

/-! ## Pure functions -/

theorem pure_declared {view : DaeView} {f : Nat} (hf : (pureFunctions view).getD f false = true) :
    ∃ function, view.functions[f]? = some function ∧ declaredPure function = true ∧
      ∀ g ∈ functionCallees function, (pureFunctions view).getD g false = true := by
  have hinv : ∀ i : Nat, (pureFunctions view).getD i false = true →
      ∃ function, view.functions[i]? = some function ∧ declaredPure function = true := by
    refine settleFlags_inv (fun flags => ∀ i : Nat, flags.getD i false = true →
      ∃ function, view.functions[i]? = some function ∧ declaredPure function = true) ?_ ?_
    · intro flags i h _ j hj
      rw [List.getD_eq_getElem?_getD, List.getElem?_set] at hj
      refine h j ?_
      rw [List.getD_eq_getElem?_getD]
      split at hj
      · split at hj <;> cases hj
      · exact hj
    · intro i hi
      rw [List.getD_eq_getElem?_getD, List.getElem?_map] at hi
      cases hfn : view.functions[i]? with
      | none => rw [hfn] at hi; cases hi
      | some function =>
        rw [hfn] at hi
        exact ⟨function, rfl, hi⟩
  obtain ⟨function, hfn, hdecl⟩ := hinv f hf
  refine ⟨function, hfn, hdecl, fun g hg => ?_⟩
  have hflag : (pureFunctions view)[f]? = some (!false) := by
    rw [List.getD_eq_getElem?_getD] at hf
    cases h : (pureFunctions view)[f]? with
    | none => rw [h] at hf; cases hf
    | some b => rw [h] at hf; exact congrArg some hf
  have hquiet := settleFlags_quiet (view.functions.map declaredPure) f hflag
  rw [callsImpure, hfn] at hquiet
  have hg := List.any_eq_false.1 hquiet g hg
  simpa [pureFunctions] using hg

section Sound

variable {T R : Type} [CommRing R] [Algebra ℚ R] {view : DaeView}

omit [CommRing R] [Algebra ℚ R] in
/-- A pure function returns one value at every time. -/
theorem FunctionBodies.call_pure (bodies : FunctionBodies view T R) {f : Nat}
    (hf : (pureFunctions view).getD f false = true) (t t' : T) : bodies.call t f = bodies.call t' f := by
  have hreturns : ∀ (depth f : Nat), (pureFunctions view).getD f false = true →
      bodies.returns t depth f = bodies.returns t' depth f := by
    intro depth
    induction depth with
    | zero => exact fun f hf => rfl
    | succ depth ih =>
      intro f hf
      obtain ⟨function, hfn, hdecl, hcallees⟩ := pure_declared hf
      exact bodies.fixed f function hfn hdecl t t' _ _ fun g hg => ih g (hcallees g hg)
  funext output args
  unfold FunctionBodies.call
  simp only [hreturns _ f hf]

/-! ## Family definitions -/

theorem familyIndexedTarget_shape {family : StructuredFamily} {e : Expr} {target : Nat}
    (h : familyIndexedTarget view family e = some target) :
    ∃ subscripts, e = .index (.coordinate (.algebraic target)) subscripts ∧
      ∀ s ∈ subscripts, familyDomainBinder family s = true := by
  unfold familyIndexedTarget at h
  split at h
  · next subscripts =>
    obtain ⟨var, -, h⟩ := Option.bind_eq_some_iff.1 h
    split at h
    · cases h
    · split at h
      · next hall =>
        cases h
        exact ⟨subscripts, rfl, List.all_eq_true.1 hall⟩
      · cases h
  · cases h

theorem familyElementAccess_shape {family : StructuredFamily} {target : Nat} {access value : Expr}
    (h : familyElementAccess view family = some (target, access, value)) :
    familyIndexedTarget view family access = some target ∧ ∃ body, family.bodies = [body] ∧
      (equationSides none body.expression = some (access, value) ∨
        equationSides none body.expression = some (value, access)) := by
  unfold familyElementAccess at h
  split at h
  · next body hbodies =>
    obtain ⟨⟨lhs, rhs⟩, hsides, h⟩ := Option.bind_eq_some_iff.1 h
    rcases Option.or_eq_some_iff.1 h with h | ⟨-, h⟩
    · obtain ⟨t, ht, heq⟩ := Option.map_eq_some_iff.1 h
      cases heq
      exact ⟨ht, body, hbodies, .inl hsides⟩
    · obtain ⟨t, ht, heq⟩ := Option.map_eq_some_iff.1 h
      cases heq
      exact ⟨ht, body, hbodies, .inr hsides⟩
  · cases h

theorem familyElementDefinitions_family {causal : CausalDefinitions} {target : Nat} {value : Expr}
    (h : familyElementDefinitions view causal target = some value) :
    ∃ family, .structured family ∈ view.continuousOwners ∧
      familyElementDefinition view family = some (target, value) := by
  have hinv : ∀ target value,
      (view.continuousOwners.foldl (recordFamily view causal) ⟨[], []⟩).values.lookup target = some value →
      ∃ family, .structured family ∈ view.continuousOwners ∧
        familyElementDefinition view family = some (target, value) := by
    refine foldl_inv (s := ⟨[], []⟩) (fun _ (s : FamilyValues) => ∀ target value, s.values.lookup target = some value →
      ∃ family, .structured family ∈ view.continuousOwners ∧
        familyElementDefinition view family = some (target, value)) ?_ (by simp)
    intro pre owner post s howners hs target value hvalue
    cases owner with
    | residual _ => exact hs target value hvalue
    | structured family =>
      cases hdef : familyElementDefinition view family with
      | none =>
        simp only [recordFamily, hdef] at hvalue
        exact hs target value hvalue
      | some definition =>
        obtain ⟨t, v⟩ := definition
        simp only [recordFamily, hdef] at hvalue
        split at hvalue
        · exact hs target value hvalue
        · rw [lookup_insertEntry] at hvalue
          split at hvalue
          · next heq =>
            cases hvalue
            exact ⟨family, howners ▸ by simp, heq ▸ hdef⟩
          · exact hs target value hvalue
  simp only [familyElementDefinitions] at h
  split at h
  · cases h
  · exact hinv target value h

theorem evalSubscripts_binders {ops : Operations R} {env : Env R} {domain : Nat} {tuple : List Int}
    {family : StructuredFamily} (hdomain : family.domain = domain) (subscripts : List Subscript)
    (h : ∀ s ∈ subscripts, familyDomainBinder family s = true) :
    (evalSubscripts ops view.points view.extents subscripts (env.bind domain tuple)).mapM id =
      some (binderPositions tuple subscripts) := by
  induction subscripts with
  | nil => rfl
  | cons s ss ih =>
    have hs := h s List.mem_cons_self
    have hss := ih fun s' hs' => h s' (List.mem_cons_of_mem s hs')
    unfold familyDomainBinder at hs
    split at hs
    · next d ordinal =>
      have hd : d = domain := (beq_iff_eq.1 hs).trans hdomain
      simp [evalSubscripts, Expr.eval, Coordinate.value, Env.bind, Value.scalar, ops.position_intCast, hd,
        binderPositions] at hss ⊢
      rw [hss]
      rfl
    · cases hs

theorem scalarAt_access {ops : Operations R} {env : Env R} {family : StructuredFamily} {tuple : List Int}
    {target k scalar : Nat} {subscripts : List Subscript} (hbinders : ∀ s ∈ subscripts, familyDomainBinder family s = true)
    {dims : List Nat} {entries : List R} (htarget : env.continuous target = some (.tensor dims entries))
    (hgather : Value.gather dims (binderPositions tuple subscripts) = some ([], [scalar]))
    {s : R} (h : scalarAt view ops (env.bind family.domain tuple) k (.index (.coordinate (.algebraic target)) subscripts) =
      some s) (hscalar : scalar < entries.length) : k = 0 ∧ entries[scalar]? = some s := by
  obtain ⟨v, hv, hk⟩ := Option.bind_eq_some_iff.1 h
  have hss : (evalSubscripts ops view.points view.extents subscripts (env.bind family.domain tuple)).mapM id =
      some (binderPositions tuple subscripts) := evalSubscripts_binders rfl subscripts hbinders
  have hvalue : v = .scalar (entries[scalar]) := by
    simp only [DaeView.eval, Expr.eval, Coordinate.value, Env.bind, htarget] at hv hss
    simp only [hss, bind, Option.bind_some, Value.index?, hgather, List.mapM_cons, List.mapM_nil,
      List.getElem?_eq_getElem hscalar] at hv
    simpa [Value.scalar] using hv.symm
  subst hvalue
  cases k with
  | zero => exact ⟨rfl, (List.getElem?_eq_getElem hscalar).trans hk⟩
  | succ k => cases hk

/-! ## Soundness -/

variable {causal : CausalDefinitions} {ops : Operations R} {bodies : FunctionBodies view T R}
  {traj : Trajectory T R}

/-- The flags mark resolved variables whose value is the same at all times. -/
structure Sound (view : DaeView) (causal : CausalDefinitions) (traj : Trajectory T R) (flags : List Bool) : Prop where
  length : flags.length = view.vars.length
  resolves : ∀ id, flags.getD id false = true → Resolves view causal id
  constant : ∀ id, flags.getD id false = true → ∀ t t', traj.continuous t id = traj.continuous t' id

omit [CommRing R] [Algebra ℚ R] in
theorem Sound.agree (hcalls : ∀ t f, traj.call t f = bodies.call t f) {flags : List Bool}
    (hs : Sound view causal traj flags) (t t' : T) (binder : Nat → Nat → Int) :
    Agree ⟨flags, pureFunctions view⟩ (traj.env t binder) (traj.env t' binder) where
  parameter id := traj.parameter_fixed t t' id
  algebraic id hid := hs.constant id hid t t'
  binder := rfl
  call f hf := (hcalls t f).trans ((bodies.call_pure hf t t').trans (hcalls t' f).symm)

omit [CommRing R] [Algebra ℚ R] in
theorem Sound.reads {flags : List Bool} (hs : Sound view causal traj flags) {e : Expr}
    (he : expressionIsTimeInvariant ⟨flags, pureFunctions view⟩ e = true) :
    acceptedForm view e = true ∧ ∀ y ∈ algebraicReads e, Resolves view causal y :=
  ⟨acceptedForm_of_invariant hs.length he, fun y hy => hs.resolves y (algebraicReads_of_invariant he hy)⟩

theorem Sound.eval_eq (hcalls : ∀ t f, traj.call t f = bodies.call t f) {flags : List Bool}
    (hs : Sound view causal traj flags) {e : Expr}
    (he : expressionIsTimeInvariant ⟨flags, pureFunctions view⟩ e = true) (t t' : T) (binder : Nat → Nat → Int) :
    view.eval ops (traj.env t binder) e = view.eval ops (traj.env t' binder) e :=
  eval_eq_of_invariant e he (hs.agree hcalls t t' binder)

theorem coordinate_eq_of_elements (hsat : Satisfies view causal ops bodies traj) {id : Nat} {var : DaeVariable}
    (hvar : view.vars[id]? = some var) (hrole : var.role = .algebraic) {t t' : T}
    (h : ∀ scalar < var.scalarCount, traj.element t id scalar = traj.element t' id scalar) :
    traj.continuous t id = traj.continuous t' id := by
  obtain ⟨entries, hentries, hlen⟩ := (hsat.typed t).algebraic hvar hrole
  obtain ⟨entries', hentries', hlen'⟩ := (hsat.typed t').algebraic hvar hrole
  simp only [Trajectory.closed, Trajectory.env] at hentries hentries'
  simp only [Trajectory.element, hentries, hentries', Option.bind_some, Value.entryAt] at h
  rw [hentries, hentries']
  congr 2
  apply List.ext_getElem?
  intro scalar
  by_cases hscalar : scalar < var.scalarCount
  · exact h scalar hscalar
  · rw [List.getElem?_eq_none (by omega), List.getElem?_eq_none (by omega)]

theorem family_element (hsat : Satisfies view causal ops bodies traj) {family : StructuredFamily}
    (howner : .structured family ∈ view.continuousOwners) {target : Nat} {subscripts : List Subscript} {value : Expr}
    (haccess : familyElementAccess view family = some (target, .index (.coordinate (.algebraic target)) subscripts, value))
    (hbinders : ∀ s ∈ subscripts, familyDomainBinder family s = true) {var : DaeVariable}
    (hvar : view.vars[target]? = some var) (hrole : var.role = .algebraic) {tuple : List Int} (htuple : tuple ∈ view.points family.domain)
    {scalar : Nat} (hscalar : scalar < var.scalarCount)
    (hgather : Value.gather var.dimensions (binderPositions tuple subscripts) = some ([], [scalar])) (t : T) :
    traj.element t target scalar = scalarAt view ops ((traj.closed t).bind family.domain tuple) 0 value := by
  obtain ⟨-, body, hbodies, hsides⟩ := familyElementAccess_shape haccess
  obtain ⟨point, hpoint, hget⟩ := List.getElem_of_mem htuple
  obtain ⟨v, k, hv, -, hk⟩ := hsat.owners t _ howner point tuple
    (by rw [List.getElem?_eq_getElem hpoint, hget]) body (hbodies ▸ List.mem_singleton_self body)
  have hzero : scalarAt view ops ((traj.closed t).bind family.domain tuple) k body.expression = some 0 :=
    Option.bind_eq_some_iff.2 ⟨v, hv, hk⟩
  have hequal : ∃ s, scalarAt view ops ((traj.closed t).bind family.domain tuple) k
      (.index (.coordinate (.algebraic target)) subscripts) = some s ∧
      scalarAt view ops ((traj.closed t).bind family.domain tuple) k value = some s := by
    rcases hsides with hsides | hsides
    · exact equationSides_sound hsides (fun z hz => nomatch hz) hzero
    · obtain ⟨s, hl, hr⟩ := equationSides_sound hsides (fun z hz => nomatch hz) hzero
      exact ⟨s, hr, hl⟩
  obtain ⟨s, hl, hr⟩ := hequal
  obtain ⟨entries, hentries, hlen⟩ := (hsat.typed t).algebraic hvar hrole
  obtain ⟨rfl, hs⟩ := scalarAt_access hbinders hentries hgather hl (hlen ▸ hscalar)
  simp only [Trajectory.closed, Trajectory.env] at hentries
  rw [hr, Trajectory.element, hentries]
  exact hs

theorem family_constant (hsat : Satisfies view causal ops bodies traj) {flags : List Bool} (hs : Sound view causal traj flags)
    {family : StructuredFamily} (howner : .structured family ∈ view.continuousOwners)
    (hreach : ReachesEveryElement view family) {target : Nat} {value : Expr}
    (hdef : familyElementDefinition view family = some (target, value))
    (hvalue : expressionIsTimeInvariant ⟨flags, pureFunctions view⟩ value = true) {var : DaeVariable}
    (hvar : view.vars[target]? = some var) (hrole : var.role = .algebraic) (t t' : T) :
    traj.continuous t target = traj.continuous t' target := by
  obtain ⟨⟨target', access, value'⟩, haccess, heq⟩ := Option.map_eq_some_iff.1 hdef
  cases heq
  obtain ⟨subscripts, rfl, hbinders⟩ := familyIndexedTarget_shape (familyElementAccess_shape haccess).1
  apply coordinate_eq_of_elements hsat hvar hrole
  intro scalar hscalar
  obtain ⟨tuple, htuple, hgather⟩ := hreach target subscripts _ value var haccess hvar scalar hscalar
  have hvalues : view.eval ops ((traj.closed t).bind family.domain tuple) value =
      view.eval ops ((traj.closed t').bind family.domain tuple) value :=
    eval_eq_of_invariant value hvalue ((hs.agree hsat.calls t t' fun _ _ => 0).bind family.domain tuple)
  rw [family_element hsat howner haccess hbinders hvar hrole htuple hscalar hgather,
    family_element hsat howner haccess hbinders hvar hrole htuple hscalar hgather, scalarAt, hvalues, scalarAt]

theorem Sound.variable (hsat : Satisfies view causal ops bodies traj) (hreach : FamiliesReachEveryElement view causal)
    {flags : List Bool} (hs : Sound view causal traj flags) {id : Nat}
    (h : becomesInvariant view causal (pureFunctions view) flags id = true) :
    Resolves view causal id ∧ ∀ t t', traj.continuous t id = traj.continuous t' id := by
  unfold becomesInvariant at h
  split at h
  · cases h
  · next var hvar =>
    simp only [Bool.and_eq_true, beq_iff_eq] at h
    have hrole := h.1.1
    have htest := h.2
    unfold variableIsTimeInvariant at htest
    split at htest
    · next definition hdef =>
      refine ⟨.whole id definition hdef (hs.reads htest).1 (hs.reads htest).2, fun t t' => ?_⟩
      rw [hsat.definitions t id definition hdef, hsat.definitions t' id definition hdef]
      exact hs.eval_eq hsat.calls htest t t' _
    · next hnone =>
      split at htest
      · next hfully =>
        simp only [Bool.and_eq_true] at hfully
        have hscalar : ∀ k < var.scalarCount, ∃ definition, causal.scalarDefinitions id k = some definition ∧
            expressionIsTimeInvariant ⟨flags, pureFunctions view⟩ definition = true := by
          intro k hk
          exact (Option.any_eq_true_iff_get _ _).1 (List.all_eq_true.1 htest k (List.mem_range.2 hk)) |>.elim
            fun hsome hget => ⟨_, (Option.some_get hsome).symm, hget⟩
        choose! definition hdef hinv using hscalar
        refine ⟨.scalars id var hvar hfully.2 definition hdef (fun k hk => (hs.reads (hinv k hk)).1)
          (fun k hk => (hs.reads (hinv k hk)).2), fun t t' => coordinate_eq_of_elements hsat hvar hrole fun k hk => ?_⟩
        rw [hsat.scalarDefinitions t id k _ (hdef k hk), hsat.scalarDefinitions t' id k _ (hdef k hk)]
        exact congrArg (fun v => Option.bind v (·.entryAt 0)) (hs.eval_eq hsat.calls (hinv k hk) t t' _)
      · cases hvalue : familyElementDefinitions view causal id with
        | none => rw [hvalue] at htest; cases htest
        | some value =>
          rw [hvalue] at htest
          have hres : Resolves view causal id := .family id value hvalue (hs.reads htest).1 (hs.reads htest).2
          obtain ⟨family, howner, hdef⟩ := familyElementDefinitions_family hvalue
          exact ⟨hres, family_constant hsat hs howner (hreach family value id howner hdef hvalue hres) hdef htest hvar
            hrole⟩

theorem invariantAlgebraicVariables_sound (hsat : Satisfies view causal ops bodies traj)
    (hreach : FamiliesReachEveryElement view causal) :
    Sound view causal traj (invariantAlgebraicVariables view causal (pureFunctions view)) := by
  apply settleFlags_inv (Sound view causal traj)
  · intro flags i hs htest
    obtain ⟨hres, hconst⟩ := hs.variable hsat hreach htest
    have hset : ∀ id, (flags.set i true).getD id false = true → id = i ∨ flags.getD id false = true := by
      intro id hid
      rw [List.getD_eq_getElem?_getD, List.getElem?_set] at hid
      split at hid
      · next h => exact .inl h.symm
      · exact .inr (by rw [List.getD_eq_getElem?_getD]; exact hid)
    refine ⟨(List.length_set ..).trans hs.length, fun id hid => ?_, fun id hid => ?_⟩
    · rcases hset id hid with rfl | hid
      · exact hres
      · exact hs.resolves id hid
    · rcases hset id hid with rfl | hid
      · exact hconst
      · exact hs.constant id hid
  · have hnone : ∀ id : Nat, (List.replicate view.vars.length false).getD id false ≠ true := by
      intro id
      rw [List.getD_eq_getElem?_getD, List.getElem?_replicate]
      split <;> simp
    exact ⟨List.length_replicate, fun id h => absurd h (hnone id), fun id h => absurd h (hnone id)⟩

/-- The marked variables are constant in each element along a trajectory, and
the accepted expressions at fixed binder values. -/
def InvarianceHolds (view : DaeView) (causal : CausalDefinitions) (ops : Operations R) (traj : Trajectory T R) : Prop :=
  (∀ id, (TimeInvariance.derive view causal).algebraic id = true →
    ∀ scalar t t', traj.element t id scalar = traj.element t' id scalar) ∧
  ∀ e, (TimeInvariance.derive view causal).expression e = true →
    ∀ binder t t', view.eval ops (traj.env t binder) e = view.eval ops (traj.env t' binder) e

theorem timeInvariance_sound (hreach : FamiliesReachEveryElement view causal) (hsat : Satisfies view causal ops bodies traj) :
    InvarianceHolds view causal ops traj := by
  have hs := invariantAlgebraicVariables_sound hsat hreach
  refine ⟨fun id hid scalar t t' => ?_, fun e he binder t t' => hs.eval_eq hsat.calls he t t' binder⟩
  exact congrArg (fun v => Option.bind v (·.entryAt scalar)) (hs.constant id hid t t')

end Sound

/-! ## A family over a part of its array -/

def noDefinitions : CausalDefinitions := ⟨fun _ => none, fun _ _ => none, fun _ => false⟩

/-- `for i in 1:upper loop x[i] = p; end for;` over the domain of that loop. -/
def elementLoop : ContinuousOwner :=
  .structured ⟨0, .binderSubstitution, [⟨0,
    .binary .subtract (.index (.coordinate (.algebraic 1)) [.index (.coordinate (.binder 0 0))])
      (.coordinate (.parameter 0))⟩]⟩

/-- `parameter Real p; Real x[3];` with the loop and further equations. -/
def familyModel (upper : Int) (rest : List ContinuousOwner) : DaeView where
  domains := [⟨[⟨1, upper, 1⟩]⟩]
  vars := [⟨.parameter, .default, .real, [], none⟩, ⟨.algebraic, .default, .real, [3], none⟩]
  functions := []
  expressions := (elementLoop :: rest).flatMap fun owner => owner.bodies.flatMap (·.expression.subexpressions)
  continuousOwners := elementLoop :: rest

/-- `x[3] = time`. -/
def thirdElementMoves : ContinuousOwner :=
  .residual ⟨1, .binary .subtract (.index (.coordinate (.algebraic 1)) [.index (.literal (.integer 3))])
    (.coordinate .time)⟩

/-- The loop leaves the third element to another equation. -/
def partialFamily : DaeView := familyModel 2 [thirdElementMoves]

/-- Integer scalars name positions; no other operation is needed. -/
def rationalOperations : Operations ℚ where
  not _ := none
  binary _ _ _ := none
  builtin _ _ := none
  arrayUpdate _ _ _ := none
  aggregate _ _ := none
  element _ _ := none
  stringConversion _ _ := none
  truth _ := none
  position q := if q.den = 1 then some q.num else none
  position_intCast n := by simp
  zeros_entries _ _ h := by cases h

/-- `p = 0` and `x = {0, 0, third(time)}`. -/
def familyTrajectory (third : ℚ → ℚ) : Trajectory ℚ ℚ where
  continuous t id := if id = 1 then some (.tensor [3] [0, 0, third t]) else none
  coordinate t
    | .parameter _ => some (.scalar 0)
    | .time => some (.scalar t)
    | _ => none
  call _ _ _ _ := none
  bodyValue _ _ := none
  parameter_fixed _ _ _ := rfl

def noBodies (upper : Int) (rest : List ContinuousOwner) : FunctionBodies (familyModel upper rest) ℚ ℚ :=
  ⟨fun _ _ _ _ _ => none, fun _ _ h => by cases h⟩

theorem noBodies_calls (upper : Int) (rest : List ContinuousOwner) (third : ℚ → ℚ) (t : ℚ) (f : Nat) :
    (familyTrajectory third).call t f = (noBodies upper rest).call t f := by
  have hnone : ∀ depth, (noBodies upper rest).returns t depth f = fun _ _ => none := by
    intro depth
    cases depth <;> rfl
  funext output args
  simp [familyTrajectory, FunctionBodies.call, firstValue, hnone]

theorem familyTrajectory_typed (upper : Int) (rest : List ContinuousOwner) (third : ℚ → ℚ) (t : ℚ) :
    ContinuousTyped (familyModel upper rest) ((familyTrajectory third).closed t) where
  defined id var hvar hrole := by
    match id with
    | 0 =>
      cases hvar
      rcases hrole with h | h | h <;> cases h
    | 1 => rfl
    | n + 2 => cases hvar
  shape id var v hvar hv := by
    match id with
    | 0 => cases hv
    | 1 =>
      cases hvar
      cases hv
      exact ⟨[0, 0, third t], rfl, rfl⟩
    | n + 2 => cases hv

theorem familyTrajectory_loop (upper : Int) (rest : List ContinuousOwner) (third : ℚ → ℚ) (t : ℚ) (i : Nat)
    (hi : i < 3) (hzero : [0, 0, third t][i] = 0) :
    scalarAt (familyModel upper rest) rationalOperations (((familyTrajectory third).closed t).bind 0 [i + 1]) 0
      (.binary .subtract (.index (.coordinate (.algebraic 1)) [.index (.coordinate (.binder 0 0))])
        (.coordinate (.parameter 0))) = some 0 := by
  have hgather : Value.gather [3] [.index (i + 1)] = some ([], [i]) := by
    match i, hi with
    | 0, _ | 1, _ | 2, _ => rfl
  have hposition : rationalOperations.position ((i : ℚ) + 1) = some ((i : Int) + 1) := by
    have h := rationalOperations.position_intCast ((i : Int) + 1)
    push_cast at h
    exact h
  simp [scalarAt, DaeView.eval, Expr.eval, evalSubscripts, Coordinate.value, Env.bind, Trajectory.closed, Trajectory.env,
    familyTrajectory, Value.scalar, Value.index?, hgather, hposition, Value.zipWith, Value.entryAt,
    List.getElem?_eq_getElem (l := [0, 0, third t]) hi, hzero]

theorem familyTrajectory_family (upper : Int) (rest : List ContinuousOwner) (third : ℚ → ℚ) (t : ℚ)
    (h : ∀ (point : Nat) tuple, ((familyModel upper rest).points 0)[point]? = some tuple →
      ∃ i : Nat, ∃ hi : i < 3, tuple = [(i : Int) + 1] ∧ [0, 0, third t][i] = 0)
    (body : ExprId) (hbody : body.expression = .binary .subtract
      (.index (.coordinate (.algebraic 1)) [.index (.coordinate (.binder 0 0))]) (.coordinate (.parameter 0))) :
    FamilyHolds (familyModel upper rest) rationalOperations ((familyTrajectory third).closed t)
      ⟨0, .binderSubstitution, [body]⟩ := by
  intro point tuple htuple b hb
  rw [List.mem_singleton.1 hb, hbody]
  obtain ⟨i, hi, rfl, hzero⟩ := h point tuple htuple
  obtain ⟨v, hv, h0⟩ := Option.bind_eq_some_iff.1 (familyTrajectory_loop upper rest third t i hi hzero)
  exact ⟨v, 0, hv, rfl, h0⟩

/-- `x = {0, 0, time}` solves `partialFamily`. -/
theorem partialFamily_satisfied :
    Satisfies partialFamily noDefinitions rationalOperations (noBodies 2 [thirdElementMoves]) (familyTrajectory id) where
  calls := noBodies_calls _ _ _
  typed := familyTrajectory_typed _ _ _
  owners t owner howner := by
    rcases List.mem_cons.1 howner with rfl | howner
    · refine familyTrajectory_family _ _ _ t (fun point tuple htuple => ?_) _ rfl
      match point with
      | 0 =>
        cases htuple
        exact ⟨0, by omega, rfl, rfl⟩
      | 1 =>
        cases htuple
        exact ⟨1, by omega, rfl, rfl⟩
      | n + 2 => cases htuple
    · rw [List.mem_singleton.1 howner]
      refine ⟨[], [t - t], ?_, by simp⟩
      have hposition := rationalOperations.position_intCast 3
      have hgather : Value.gather [3] [.index 3] = some ([], [2]) := rfl
      simp [DaeView.eval, Expr.eval, evalSubscripts, Coordinate.value, Trajectory.closed, Trajectory.env,
        familyTrajectory, Value.scalar, Value.index?, DaeLiteral.value] at hposition ⊢
      simp [hposition, hgather, Value.zipWith]
  definitions _ _ _ h := by cases h
  scalarDefinitions _ _ _ _ h := by cases h

/-- The array of `partialFamily` is marked, and its third element moves. -/
theorem partialFamily_moves :
    Satisfies partialFamily noDefinitions rationalOperations (noBodies 2 [thirdElementMoves]) (familyTrajectory id) ∧
      ¬ InvarianceHolds partialFamily noDefinitions rationalOperations (familyTrajectory id) := by
  refine ⟨partialFamily_satisfied, fun h => ?_⟩
  have hmarked : (TimeInvariance.derive partialFamily noDefinitions).algebraic 1 = true := by decide
  have hsame : (some (0 : ℚ)) = some 1 := h.1 1 hmarked 2 0 1
  simp at hsame

theorem wholeFamily_satisfied :
    Satisfies (familyModel 3 []) noDefinitions rationalOperations (noBodies 3 []) (familyTrajectory fun _ => 0) where
  calls := noBodies_calls _ _ _
  typed := familyTrajectory_typed _ _ _
  owners t owner howner := by
    rw [List.mem_singleton.1 howner]
    refine familyTrajectory_family _ _ _ t (fun point tuple htuple => ?_) _ rfl
    match point with
    | 0 =>
      cases htuple
      exact ⟨0, by omega, rfl, rfl⟩
    | 1 =>
      cases htuple
      exact ⟨1, by omega, rfl, rfl⟩
    | 2 =>
      cases htuple
      exact ⟨2, by omega, rfl, rfl⟩
    | n + 3 => cases htuple
  definitions _ _ _ h := by cases h
  scalarDefinitions _ _ _ _ h := by cases h

theorem wholeFamily_reaches : FamiliesReachEveryElement (familyModel 3 []) noDefinitions := by
  intro family value target howner hdef _ _
  cases List.mem_singleton.1 howner
  intro target' subscripts base value' var haccess hvar scalar hscalar
  cases haccess
  cases hvar
  match scalar, hscalar with
  | 0, _ => exact ⟨[1], by decide, rfl⟩
  | 1, _ => exact ⟨[2], by decide, rfl⟩
  | 2, _ => exact ⟨[3], by decide, rfl⟩

theorem wholeFamily_invariant :
    InvarianceHolds (familyModel 3 []) noDefinitions rationalOperations (familyTrajectory fun _ => 0) :=
  timeInvariance_sound wholeFamily_reaches wholeFamily_satisfied

end Rumoca.DaeTransform
