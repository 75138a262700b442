import Rumoca.Flatten.ConnectionSets
/-!
# Connection sets are the components of their pairs

A pair of endpoints is of one kind, decided by the two declarations alone.
The flow and stream sets of a scope are the components of that scope's pairs,
the potential sets those of the pairs of all scopes, so neither the order of
the connections nor that of their endpoints matters.
-/

namespace Rumoca.Flatten

open Rumoca.Lib UnionFind

/-! ## Kinds of pairs -/

/-- Where a pair of members is routed. -/
inductive PairKind where
  | flow | stream | potential
deriving DecidableEq, Repr

/-- Whether a member is declared `parameter` or `constant`. -/
def isStructural (flat : FlatModel) (var : VarName) : Bool :=
  ((connectionMemberDeclaration flat var).bind structuralVariabilityLabel).isSome

/-- The kind of a pair; `none` when it generates nothing. -/
def pairKind (flat : FlatModel) (a b : VarName) : Option PairKind :=
  if isStructural flat a && isStructural flat b then none
  else if isFlowVariable flat a && isFlowVariable flat b then some .flow
  else if isStreamVariable flat a && isStreamVariable flat b then some .stream
  else if !isFlowVariable flat a && !isFlowVariable flat b then some .potential
  else none

theorem pairKind_comm (flat : FlatModel) (a b : VarName) : pairKind flat a b = pairKind flat b a := by
  unfold pairKind
  rw [Bool.and_comm (isStructural flat a), Bool.and_comm (isFlowVariable flat a),
    Bool.and_comm (isStreamVariable flat a), Bool.and_comm (!isFlowVariable flat a)]

def kindPairs (flat : FlatModel) (kind : PairKind) (connections : List InstanceConnection) :
    List (VarName × VarName) :=
  (connections.filter fun c => pairKind flat c.a c.b = some kind).map fun c => (c.a, c.b)

theorem kindPairs_append (flat : FlatModel) (kind : PairKind) (left right : List InstanceConnection) :
    kindPairs flat kind (left ++ right) = kindPairs flat kind left ++ kindPairs flat kind right := by
  simp [kindPairs]

theorem kindPairs_singleton (flat : FlatModel) (kind : PairKind) (c : InstanceConnection) :
    kindPairs flat kind [c] = if pairKind flat c.a c.b = some kind then [(c.a, c.b)] else [] := by
  unfold kindPairs
  by_cases h : pairKind flat c.a c.b = some kind <;> simp [h]

theorem mem_kindPairs {flat : FlatModel} {kind : PairKind} {connections : List InstanceConnection} {x y : VarName} :
    (x, y) ∈ kindPairs flat kind connections ↔
      ∃ c ∈ connections, pairKind flat c.a c.b = some kind ∧ c.a = x ∧ c.b = y := by
  simp [kindPairs, and_assoc]

def Accepted (flat : FlatModel) (a b : VarName) : Prop :=
  ∃ pairing, classifyConnectionMemberPair flat a b = .ok pairing

theorem classify_ok {flat : FlatModel} {a b : VarName} {pairing : MemberPairing}
    (h : classifyConnectionMemberPair flat a b = .ok pairing) :
    pairing = .noEquation ↔ isStructural flat a ∧ isStructural flat b := by
  unfold classifyConnectionMemberPair at h
  unfold isStructural
  cases ha : connectionMemberDeclaration flat a with
  | none =>
    rw [ha] at h
    obtain rfl : pairing = .connect := by simpa using h.symm
    simp
  | some declA =>
    cases hb : connectionMemberDeclaration flat b with
    | none =>
      rw [ha, hb] at h
      obtain rfl : pairing = .connect := by simpa using h.symm
      simp
    | some declB =>
      rw [ha, hb] at h
      simp only [Option.bind_some]
      cases hla : structuralVariabilityLabel declA <;> cases hlb : structuralVariabilityLabel declB <;>
        simp only [hla, hlb] at h
      · split at h
        · cases h
        · cases h
        · obtain rfl := Except.ok.inj h
          simp
      · cases h
      · cases h
      · obtain rfl := Except.ok.inj h
        simp

theorem accepted_comm {flat : FlatModel} {a b : VarName} (h : Accepted flat a b) : Accepted flat b a := by
  obtain ⟨pairing, h⟩ := h
  unfold Accepted
  unfold classifyConnectionMemberPair at h ⊢
  cases ha : connectionMemberDeclaration flat a with
  | none => cases hb : connectionMemberDeclaration flat b <;> exact ⟨_, rfl⟩
  | some declA =>
    cases hb : connectionMemberDeclaration flat b with
    | none => exact ⟨_, rfl⟩
    | some declB =>
      rw [ha, hb] at h
      cases hla : structuralVariabilityLabel declA <;> cases hlb : structuralVariabilityLabel declB <;>
        simp only [hla, hlb] at h ⊢
      · cases hsa : declA.stream <;> cases hsb : declB.stream <;> simp only [hsa, hsb] at h ⊢
        · exact ⟨_, rfl⟩
        · cases h
        · cases h
        · exact ⟨_, rfl⟩
      · cases h
      · cases h
      · exact ⟨_, rfl⟩

/-! ## One scope -/

/-- What the connections passed so far have been collected in, over the potential pairs of earlier scopes. -/
structure Collected (flat : FlatModel) (earlier : List (VarName × VarName)) (passed : List InstanceConnection)
    (build : ConnectionBuild) : Prop where
  flow : build.flowPairs = kindPairs flat .flow passed
  potential : Represents (earlier ++ kindPairs flat .potential passed) build.potentialUf
  stream : Represents (kindPairs flat .stream passed) build.streamUf
  accepted : ∀ c ∈ passed, Accepted flat c.a c.b

def Rejected (flat : FlatModel) (connections : List InstanceConnection) (error : FlattenError) : Prop :=
  (∃ c ∈ connections, classifyConnectionMemberPair flat c.a c.b = .error error) ∨
    ((∃ reason, error = .missingSourceContext reason) ∧ ∃ c ∈ connections, c.span.isDummy)

theorem Rejected.mono {flat : FlatModel} {connections connections' : List InstanceConnection} {error : FlattenError}
    (h : Rejected flat connections error) (hsub : ∀ c ∈ connections, c ∈ connections') :
    Rejected flat connections' error := by
  rcases h with ⟨c, hc, he⟩ | ⟨hreason, c, hc, he⟩
  · exact .inl ⟨c, hsub c hc, he⟩
  · exact .inr ⟨hreason, c, hsub c hc, he⟩

section
variable {flat : FlatModel} {expand : Expansion} {earlier : List (VarName × VarName)}

theorem connectPrimitiveVars_outcome {passed : List InstanceConnection} {build : ConnectionBuild}
    (h : Collected flat earlier passed build) (c : InstanceConnection) :
    Outcome (connectPrimitiveVars flat c.a c.b build) (Collected flat earlier (passed ++ [c])) (Rejected flat [c]) := by
  unfold connectPrimitiveVars
  cases hclass : classifyConnectionMemberPair flat c.a c.b with
  | error error => exact .throw (.inl ⟨c, by simp, hclass⟩)
  | ok pairing =>
    have haccepted : ∀ d ∈ passed ++ [c], Accepted flat d.a d.b := by
      intro d hd
      rcases List.mem_append.1 hd with hd | hd
      · exact h.accepted d hd
      · rw [List.mem_singleton.1 hd]
        exact ⟨pairing, hclass⟩
    have hstructural := classify_ok hclass
    -- the tables after a pair of a kind, from the tables that kind changes
    have hkeep : ∀ kind, pairKind flat c.a c.b ≠ some kind →
        kindPairs flat kind (passed ++ [c]) = kindPairs flat kind passed := by
      intro kind hkind
      rw [kindPairs_append, kindPairs_singleton, if_neg hkind, List.append_nil]
    have hadd : ∀ kind, pairKind flat c.a c.b = some kind →
        kindPairs flat kind (passed ++ [c]) = kindPairs flat kind passed ++ [(c.a, c.b)] := by
      intro kind hkind
      rw [kindPairs_append, kindPairs_singleton, if_pos hkind]
    change Outcome (ite (pairing = .noEquation) _ _) _ _
    by_cases hno : pairing = .noEquation
    · have hkind : pairKind flat c.a c.b = none := by
        obtain ⟨ha, hb⟩ := hstructural.1 hno
        rw [pairKind, if_pos (by simp [ha, hb])]
      rw [if_pos hno]
      refine .pure ⟨?_, ?_, ?_, haccepted⟩
      · rw [hkeep .flow (by simp [hkind])]
        exact h.flow
      · rw [hkeep .potential (by simp [hkind])]
        exact h.potential
      · rw [hkeep .stream (by simp [hkind])]
        exact h.stream
    rw [if_neg hno]
    have hns : ¬ (isStructural flat c.a && isStructural flat c.b) = true := by
      rw [Bool.and_eq_true]
      exact fun hs => hno (hstructural.2 hs)
    by_cases hflow : (isFlowVariable flat c.a && isFlowVariable flat c.b) = true
    · have hkind : pairKind flat c.a c.b = some .flow := by rw [pairKind, if_neg hns, if_pos hflow]
      simp only [if_pos hflow]
      refine .pure ⟨?_, ?_, ?_, haccepted⟩
      · rw [hadd .flow hkind, h.flow]
      · rw [hkeep .potential (by simp [hkind])]
        exact h.potential
      · rw [hkeep .stream (by simp [hkind])]
        exact h.stream
    by_cases hstream : (isStreamVariable flat c.a && isStreamVariable flat c.b) = true
    · have hkind : pairKind flat c.a c.b = some .stream := by rw [pairKind, if_neg hns, if_neg hflow, if_pos hstream]
      obtain ⟨uf, huf, hrep⟩ := union_represents h.stream c.a c.b
      simp only [if_neg hflow, if_pos hstream, huf, lift_some]
      refine .pure ⟨?_, ?_, ?_, haccepted⟩
      · rw [hkeep .flow (by simp [hkind])]
        exact h.flow
      · rw [hkeep .potential (by simp [hkind])]
        exact h.potential
      · rw [hadd .stream hkind]
        exact hrep
    by_cases hpot : (!isFlowVariable flat c.a && !isFlowVariable flat c.b) = true
    · have hkind : pairKind flat c.a c.b = some .potential := by
        rw [pairKind, if_neg hns, if_neg hflow, if_neg hstream, if_pos hpot]
      obtain ⟨uf, huf, hrep⟩ := union_represents h.potential c.a c.b
      simp only [if_neg hflow, if_neg hstream, if_pos hpot, huf, lift_some]
      refine .pure ⟨?_, ?_, ?_, haccepted⟩
      · rw [hkeep .flow (by simp [hkind])]
        exact h.flow
      · rw [hadd .potential hkind, ← List.append_assoc]
        exact hrep
      · rw [hkeep .stream (by simp [hkind])]
        exact h.stream
    · have hkind : pairKind flat c.a c.b = none := by
        rw [pairKind, if_neg hns, if_neg hflow, if_neg hstream, if_neg hpot]
      simp only [if_neg hflow, if_neg hstream, if_neg hpot]
      refine .pure ⟨?_, ?_, ?_, haccepted⟩
      · rw [hkeep .flow (by simp [hkind])]
        exact h.flow
      · rw [hkeep .potential (by simp [hkind])]
        exact h.potential
      · rw [hkeep .stream (by simp [hkind])]
        exact h.stream

def Declared (flat : FlatModel) (connections : List InstanceConnection) : Prop :=
  ∀ c ∈ connections, isPrimitiveEndpoint flat c.a ∧ isPrimitiveEndpoint flat c.b

theorem processConnection_eq {c : InstanceConnection} {build : ConnectionBuild}
    (h : isPrimitiveEndpoint flat c.a ∧ isPrimitiveEndpoint flat c.b) :
    processConnection flat expand build c = connectPrimitiveVars flat c.a c.b build := by
  unfold processConnection
  rw [h.1, h.2]
  split <;> rfl

/-! ## Spans -/

theorem lookup_recordVarSpan (spans : List (VarName × Span)) (key var : VarName) (span : Span) :
    (recordVarSpan spans key span).lookup var =
      if var = key then some ((spans.lookup key).getD span) else spans.lookup var := by
  unfold recordVarSpan
  cases hkey : spans.lookup key with
  | some found =>
    by_cases hv : var = key
    · simp [hv, hkey]
    · simp [hv]
  | none =>
    rw [if_neg (by simp), List.lookup_append]
    by_cases hv : var = key
    · simp [hv, hkey]
    · rw [if_neg hv, List.lookup_cons, beq_false_of_ne hv]
      simp

theorem firstSpans_lookup (connections : List InstanceConnection) :
    (∀ c ∈ connections, ∀ var ∈ [c.a, c.b], ((firstSpans connections).lookup var).isSome) ∧
      ∀ var span, (firstSpans connections).lookup var = some span → ∃ c ∈ connections, c.span = span := by
  refine foldl_inv (fun (passed : List InstanceConnection) (spans : List (VarName × Span)) =>
    (∀ c ∈ passed, ∀ var ∈ [c.a, c.b], (spans.lookup var).isSome) ∧
      ∀ var span, spans.lookup var = some span → ∃ c ∈ passed, c.span = span) ?_ ?_
  · rintro passed c - spans - ⟨hsome, hspan⟩
    simp only [lookup_recordVarSpan]
    refine ⟨fun d hd var hvar => ?_, fun var span hl => ?_⟩
    · split
      · rfl
      · split
        · rfl
        · next hb ha =>
          rcases List.mem_append.1 hd with hd | hd
          · exact hsome d hd var hvar
          · rw [List.mem_singleton.1 hd] at hvar
            simp [ha, hb] at hvar
    · have hold : ∀ span, spans.lookup var = some span → ∃ d ∈ passed ++ [c], d.span = span := by
        intro span hl
        obtain ⟨d, hd, he⟩ := hspan var span hl
        exact ⟨d, List.mem_append_left _ hd, he⟩
      have hnew : ∃ d ∈ passed ++ [c], d.span = c.span := ⟨c, by simp, rfl⟩
      have hkey : ∀ key, ∃ d ∈ passed ++ [c], d.span = (spans.lookup key).getD c.span := by
        intro key
        cases hl : spans.lookup key with
        | none => exact hnew
        | some found =>
          obtain ⟨d, hd, he⟩ := hspan key found hl
          exact ⟨d, List.mem_append_left _ hd, he⟩
      split at hl
      · split at hl
        · rw [Option.getD_some] at hl
          exact Option.some.inj hl ▸ hkey c.a
        · exact Option.some.inj hl ▸ hkey c.b
      · split at hl
        · exact Option.some.inj hl ▸ hkey c.a
        · exact hold span hl
  · exact ⟨by simp, by simp⟩

/-- A set with an endpoint among its members has a span, unless the endpoint was connected without one. -/
theorem representative_outcome {connections : List InstanceConnection} {vars : List VarName} {var : VarName}
    (hvar : var ∈ vars) {c : InstanceConnection} (hc : c ∈ connections) (hend : var ∈ [c.a, c.b]) :
    Outcome (ExceptT.mk (some (representativeConnectionSpan flat vars (firstSpans connections))) : FlattenResult Span)
      (fun _ => True) (Rejected flat connections) := by
  obtain ⟨hsome, hspan⟩ := firstSpans_lookup connections
  obtain ⟨span, hl⟩ := Option.isSome_iff_exists.1 (hsome c hc var hend)
  obtain ⟨d, hd, rfl⟩ := hspan var span hl
  unfold representativeConnectionSpan
  cases hmin : minSpan (memberSpans flat vars (firstSpans connections)) with
  | some span => exact .pure trivial
  | none =>
    refine .throw (.inr ⟨⟨_, rfl⟩, d, hd, ?_⟩)
    -- a real span of `var` would be among the candidates
    by_contra hreal
    have hcandidate : d.span ∈ memberSpans flat vars (firstSpans connections) := by
      refine List.mem_filterMap.2 ⟨var, hvar, ?_⟩
      rw [hl, Option.filter_some, if_pos (by simpa using hreal)]
      rfl
    cases hspans : memberSpans flat vars (firstSpans connections) with
    | nil =>
      rw [hspans] at hcandidate
      cases hcandidate
    | cons span spans =>
      rw [hspans] at hmin
      cases hmin

/-! ## Sets and components -/

/-- The lists are the components of `R` with property `P`, each once and without repetition. -/
structure SetsOf (R : VarName → VarName → Prop) (P : Set VarName → Prop) (sets : List (List VarName)) : Prop where
  component : ∀ S, (∃ vars ∈ sets, {v | v ∈ vars} = S) ↔ IsComponent R S ∧ P S
  nodup : ∀ vars ∈ sets, vars.Nodup
  disjoint : sets.Pairwise List.Disjoint

theorem nontrivial_iff {vars : List VarName} (h : vars.Nodup) :
    Set.Nontrivial {v | v ∈ vars} ↔ 2 ≤ vars.length := by
  constructor
  · rintro ⟨x, hx, y, hy, hne⟩
    match vars, hx, hy with
    | [], hx, _ => cases hx
    | [z], hx, hy => exact absurd ((List.mem_singleton.1 hx).trans (List.mem_singleton.1 hy).symm) hne
    | _ :: _ :: _, _, _ => simp
  · intro hlen
    match vars, h, hlen with
    | x :: y :: rest, h, _ =>
      refine ⟨x, by simp, y, by simp, ?_⟩
      rintro rfl
      simp at h

theorem setsOf_of_partitions {R : VarName → VarName → Prop} {sets : List (List VarName)} (h : Partitions R sets) :
    SetsOf R (fun _ => True) sets :=
  ⟨fun S => (h.component S).trans (and_iff_left trivial).symm, h.nodup, h.disjoint⟩

theorem setsOf_nontrivial_of_partitions {R : VarName → VarName → Prop} {sets : List (List VarName)}
    (h : Partitions R sets) : SetsOf R Set.Nontrivial (sets.filter fun vars => 2 ≤ vars.length) := by
  refine ⟨fun S => ⟨?_, ?_⟩, fun vars hvars => h.nodup vars (List.mem_of_mem_filter hvars), h.disjoint.filter _⟩
  · rintro ⟨vars, hvars, rfl⟩
    obtain ⟨hmem, hlen⟩ := List.mem_filter.1 hvars
    exact ⟨(h.component _).1 ⟨vars, hmem, rfl⟩, (nontrivial_iff (h.nodup vars hmem)).2 (by simpa using hlen)⟩
  · rintro ⟨hcomponent, hnontrivial⟩
    obtain ⟨vars, hmem, rfl⟩ := (h.component S).2 hcomponent
    exact ⟨vars, List.mem_filter.2 ⟨hmem, by simpa using (nontrivial_iff (h.nodup vars hmem)).1 hnontrivial⟩, rfl⟩

theorem endpoint_of_partitions {connections : List InstanceConnection} {kind : PairKind} {sets : List (List VarName)}
    (h : Partitions (fun x y => (x, y) ∈ kindPairs flat kind connections) sets) {vars : List VarName}
    (hvars : vars ∈ sets) : ∃ var ∈ vars, ∃ c ∈ connections, var ∈ [c.a, c.b] := by
  obtain ⟨x, ⟨y, hxy⟩, hS⟩ := (h.component _).1 ⟨vars, hvars, rfl⟩
  have hx : x ∈ vars := by
    have : x ∈ {v | v ∈ vars} := hS ▸ Relation.EqvGen.refl x
    exact this
  refine ⟨x, hx, ?_⟩
  simp only [mem_kindPairs] at hxy
  rcases hxy with ⟨c, hc, -, rfl, -⟩ | ⟨c, hc, -, -, rfl⟩
  · exact ⟨c, hc, by simp⟩
  · exact ⟨c, hc, by simp⟩

variable {connections : List InstanceConnection}

theorem connectionSetsOf_outcome (kind : ConnectionKind) (scope : String) (sets : List (VarName × List VarName))
    (h : ∀ vars ∈ sets.map (·.2), ∃ var ∈ vars, ∃ c ∈ connections, var ∈ [c.a, c.b]) :
    Outcome (connectionSetsOf flat (firstSpans connections) kind scope sets)
      (fun result => result.map (·.vars) = (sets.map (·.2)).filter (fun vars => 2 ≤ vars.length) ∧
        ∀ set ∈ result, set.kind = kind ∧ set.scope = scope) (Rejected flat connections) := by
  refine (Outcome.mapM (g := fun set => (set.2, kind, scope)) (r := fun set => (set.vars, set.kind, set.scope))
    fun set hset => ?_).mono (fun result hresult => ⟨?_, fun set hset => ?_⟩) fun _ => id
  · obtain ⟨var, hvar, c, hc, hend⟩ := h set.2 (List.mem_map_of_mem (List.mem_of_mem_filter hset))
    exact (representative_outcome hvar hc hend).bind fun span _ => .pure rfl
  · have := congrArg (List.map (·.1)) hresult
    simp only [List.map_map, Function.comp_def] at this
    rw [this, List.filter_map]
    rfl
  · have hmem : (set.vars, set.kind, set.scope) ∈ result.map fun set => (set.vars, set.kind, set.scope) :=
      List.mem_map_of_mem hset
    rw [hresult] at hmem
    obtain ⟨found, -, he⟩ := List.mem_map.1 hmem
    simp only [Prod.mk.injEq] at he
    exact ⟨he.2.1.symm, he.2.2.symm⟩

theorem streamSetsOf_outcome (scope : String) (sets : List (VarName × List VarName))
    (h : ∀ vars ∈ sets.map (·.2), ∃ var ∈ vars, ∃ c ∈ connections, var ∈ [c.a, c.b]) :
    Outcome (streamSetsOf flat (firstSpans connections) scope sets)
      (fun result => result.map (·.vars) = sets.map (·.2) ∧ ∀ set ∈ result, set.scope = scope)
      (Rejected flat connections) := by
  refine (Outcome.mapM (g := fun set => (set.2, scope)) (r := fun set => (set.vars, set.scope))
    fun set hset => ?_).mono (fun result hresult => ⟨?_, fun set hset => ?_⟩) fun _ => id
  · obtain ⟨var, hvar, c, hc, hend⟩ := h set.2 (List.mem_map_of_mem hset)
    exact (representative_outcome hvar hc hend).bind fun span _ => .pure rfl
  · have := congrArg (List.map (·.1)) hresult
    simpa only [List.map_map, Function.comp_def] using this
  · have hmem : (set.vars, set.scope) ∈ result.map fun set => (set.vars, set.scope) := List.mem_map_of_mem hset
    rw [hresult] at hmem
    obtain ⟨found, -, he⟩ := List.mem_map.1 hmem
    simp only [Prod.mk.injEq] at he
    exact he.2.symm

/-! ## Scope by scope -/

def flowSets (sets : List ConnectionSet) (scope : String) : List (List VarName) :=
  (sets.filter fun set => set.kind = .flow ∧ set.scope = scope).map (·.vars)

def potentialSets (sets : List ConnectionSet) : List (List VarName) :=
  (sets.filter fun set => set.kind = .potential).map (·.vars)

def streamSetsIn (sets : List StreamConnectionSet) (scope : String) : List (List VarName) :=
  (sets.filter fun set => set.scope = scope).map (·.vars)

def connectionsIn (scopes : List (String × List InstanceConnection)) (scope : String) : List InstanceConnection :=
  (scopes.lookup scope).getD []

/-- What has been found after the scopes passed so far. -/
structure Found (flat : FlatModel) (passed : List (String × List InstanceConnection)) (found : FoundSets) : Prop where
  potential : Represents (passed.flatMap fun scope => kindPairs flat .potential scope.2) found.potentialUf
  flow : ∀ scope, SetsOf (fun x y => (x, y) ∈ kindPairs flat .flow (connectionsIn passed scope)) Set.Nontrivial
    (flowSets found.result scope)
  stream : ∀ scope, SetsOf (fun x y => (x, y) ∈ kindPairs flat .stream (connectionsIn passed scope)) (fun _ => True)
    (streamSetsIn found.streamSets scope)
  kinds : ∀ set ∈ found.result, set.kind = .flow ∧ set.scope ∈ passed.map (·.1)
  scopes : ∀ set ∈ found.streamSets, set.scope ∈ passed.map (·.1)
  accepted : ∀ scope ∈ passed, ∀ c ∈ scope.2, Accepted flat c.a c.b

theorem setsOf_nil {P : Set VarName → Prop} : SetsOf (fun x y => (x, y) ∈ ([] : List (VarName × VarName))) P [] := by
  refine ⟨fun S => ⟨?_, ?_⟩, by simp, .nil⟩
  · rintro ⟨vars, hvars, -⟩
    cases hvars
  · rintro ⟨⟨x, ⟨y, hy⟩, -⟩, -⟩
    simp at hy

theorem found_start : Found flat [] ⟨UnionFind.new, [], []⟩ :=
  ⟨represents_new, fun _ => setsOf_nil, fun _ => setsOf_nil, by simp, by simp, by simp⟩

theorem filter_append_scope {α : Type} {old new : List α} (scopeOf : α → String) (key : String) {scope : String}
    (hold : ∀ set ∈ old, scopeOf set ≠ key) (hnew : ∀ set ∈ new, scopeOf set = key) :
    (old ++ new).filter (fun set => scopeOf set = scope) =
      if scope = key then new else old.filter fun set => scopeOf set = scope := by
  rw [List.filter_append]
  split
  · next h =>
    rw [List.filter_eq_nil_iff.2, List.filter_eq_self.2, List.nil_append]
    · exact fun set hset => by simpa [h] using hnew set hset
    · exact fun set hset => by simpa [h] using hold set hset
  · next h =>
    have hnone : new.filter (fun set => scopeOf set = scope) = [] :=
      List.filter_eq_nil_iff.2 fun set hset => by simpa [hnew set hset] using Ne.symm h
    rw [hnone, List.append_nil]

theorem processScope_outcome {passed : List (String × List InstanceConnection)}
    {scope : String × List InstanceConnection} {found : FoundSets} (h : Found flat passed found)
    (hnew : scope.1 ∉ passed.map (·.1)) (hdeclared : Declared flat scope.2) (hsub : ∀ c ∈ scope.2, c ∈ connections) :
    Outcome (processScope flat expand (firstSpans connections) found scope) (Found flat (passed ++ [scope]))
      (Rejected flat connections) := by
  unfold processScope
  have hbuild : Outcome (scope.2.foldlM (processConnection flat expand) ⟨[], found.potentialUf, UnionFind.new⟩)
      (Collected flat (passed.flatMap fun scope => kindPairs flat .potential scope.2) scope.2)
      (Rejected flat connections) := by
    refine Outcome.foldlM (fun pre build => Collected flat (passed.flatMap fun scope =>
      kindPairs flat .potential scope.2) pre build) (fun pre c post build hl hbuild => ?_) ?_
    · have hc : c ∈ scope.2 := hl ▸ by simp
      rw [processConnection_eq (hdeclared c hc)]
      exact (connectPrimitiveVars_outcome hbuild c).mono (fun _ => id) fun error he =>
        he.mono fun d hd => hsub d (List.mem_singleton.1 hd ▸ hc)
    · refine ⟨rfl, ?_, represents_new, by simp⟩
      simpa [kindPairs] using h.potential
  refine hbuild.bind fun build hcollected => ?_
  obtain ⟨scopeUf, hscope, hscopeRep⟩ := ofPairs_represents build.flowPairs
  obtain ⟨scopeUf', flowFound, hflowSets, hflowPart⟩ := getSets_represents hscopeRep
  obtain ⟨streamUf', streamFound, hstreamSets, hstreamPart⟩ := getSets_represents hcollected.stream
  rw [hcollected.flow] at hflowPart
  have hendpoint : ∀ kind sets, Partitions (fun x y => (x, y) ∈ kindPairs flat kind scope.2) sets →
      ∀ vars ∈ sets, ∃ var ∈ vars, ∃ c ∈ connections, var ∈ [c.a, c.b] := by
    intro kind sets hpart vars hvars
    obtain ⟨var, hvar, c, hc, hend⟩ := endpoint_of_partitions hpart hvars
    exact ⟨var, hvar, c, hsub c hc, hend⟩
  simp only [hscope, lift_some, hflowSets]
  refine (connectionSetsOf_outcome .flow scope.1 flowFound (hendpoint _ _ hflowPart)).bind fun flow hflow => ?_
  simp only [hstreamSets, lift_some]
  refine (streamSetsOf_outcome scope.1 streamFound (hendpoint _ _ hstreamPart)).bind fun stream hstream => .pure ?_
  have hin : ∀ key, connectionsIn (passed ++ [scope]) key =
      if key = scope.1 then scope.2 else connectionsIn passed key := by
    intro key
    unfold connectionsIn
    rw [List.lookup_append]
    split
    · next hk =>
      have hnone : passed.lookup key = none := by
        rw [List.lookup_eq_none_iff]
        intro entry hentry
        have hne : key ≠ entry.1 := by
          rintro rfl
          exact hnew (hk ▸ List.mem_map_of_mem hentry)
        simpa using hne
      rw [hnone, hk, List.lookup_cons, beq_self_eq_true]
      rfl
    · next hk =>
      rw [List.lookup_cons, beq_false_of_ne hk]
      simp
  refine ⟨?_, fun key => ?_, fun key => ?_, fun set hset => ?_, fun set hset => ?_, fun s hs => ?_⟩
  · rw [List.flatMap_append, List.flatMap_singleton]
    exact hcollected.potential
  · have hfilter : flowSets (found.result ++ flow) key =
        if key = scope.1 then flow.map (·.vars) else flowSets found.result key := by
      unfold flowSets
      have hkinds : ∀ sets : List ConnectionSet, (∀ set ∈ sets, set.kind = .flow) →
          (sets.filter fun set => set.kind = .flow ∧ set.scope = key) = sets.filter fun set => set.scope = key :=
        fun sets hsets => List.filter_congr fun set hset => by simp [hsets set hset]
      rw [hkinds _ fun set hset => (List.mem_append.1 hset).elim (fun hs => (h.kinds set hs).1) fun hs => (hflow.2 set hs).1,
        hkinds _ fun set hs => (h.kinds set hs).1,
        filter_append_scope (fun set : ConnectionSet => set.scope) scope.1
          (fun set hset he => hnew (he ▸ (h.kinds set hset).2)) fun set hset => (hflow.2 set hset).2]
      split <;> rfl
    rw [hfilter, hin]
    split
    · rw [hflow.1]
      exact setsOf_nontrivial_of_partitions hflowPart
    · exact h.flow key
  · have hfilter : streamSetsIn (found.streamSets ++ stream) key =
        if key = scope.1 then stream.map (·.vars) else streamSetsIn found.streamSets key := by
      unfold streamSetsIn
      rw [filter_append_scope (fun set : StreamConnectionSet => set.scope) scope.1
        (fun set hset he => hnew (he ▸ h.scopes set hset)) fun set hset => hstream.2 set hset]
      split <;> rfl
    rw [hfilter, hin]
    split
    · rw [hstream.1]
      exact setsOf_of_partitions hstreamPart
    · exact h.stream key
  · rw [List.map_append, List.mem_append]
    rcases List.mem_append.1 hset with hset | hset
    · exact ⟨(h.kinds set hset).1, .inl (h.kinds set hset).2⟩
    · exact ⟨(hflow.2 set hset).1, .inr (by simp [(hflow.2 set hset).2])⟩
  · rw [List.map_append, List.mem_append]
    rcases List.mem_append.1 hset with hset | hset
    · exact .inl (h.scopes set hset)
    · exact .inr (by simp [hstream.2 set hset])
  · rcases List.mem_append.1 hs with hs | hs
    · exact h.accepted s hs
    · rw [List.mem_singleton.1 hs]
      exact hcollected.accepted

theorem connectionsByScope_spec (connections : List InstanceConnection) :
    ((connectionsByScope connections).map (·.1)).Nodup ∧
      ∀ scope, connectionsIn (connectionsByScope connections) scope = connections.filter fun c => c.scope = scope := by
  unfold connectionsByScope
  refine foldl_inv (fun (passed : List InstanceConnection) (scopes : List (String × List InstanceConnection)) =>
    (scopes.map (·.1)).Nodup ∧ ∀ scope, connectionsIn scopes scope = passed.filter fun c => c.scope = scope) ?_ ?_
  · rintro passed c - scopes - ⟨hnodup, hscopes⟩
    refine ⟨keys_pushEntry_nodup hnodup c.scope c, fun scope => ?_⟩
    unfold connectionsIn at hscopes ⊢
    rw [lookup_pushEntry, List.filter_append]
    split
    · next h =>
      rw [Option.getD_some, hscopes, h]
      simp
    · next h =>
      rw [hscopes]
      simp [Ne.symm h]
  · exact ⟨List.nodup_nil, fun _ => rfl⟩

theorem mem_connectionsByScope {scope : String × List InstanceConnection}
    (h : scope ∈ connectionsByScope connections) : scope.2 = connections.filter fun c => c.scope = scope.1 := by
  obtain ⟨hnodup, hscopes⟩ := connectionsByScope_spec connections
  rw [← hscopes, connectionsIn, lookup_of_mem_keys hnodup h]
  rfl

theorem exists_scope {c : InstanceConnection} (hc : c ∈ connections) :
    ∃ scope ∈ connectionsByScope connections, c ∈ scope.2 := by
  have hin : c ∈ connectionsIn (connectionsByScope connections) c.scope := by
    rw [(connectionsByScope_spec connections).2]
    simpa using hc
  unfold connectionsIn at hin
  cases hl : (connectionsByScope connections).lookup c.scope with
  | none =>
    rw [hl] at hin
    cases hin
  | some members =>
    rw [hl] at hin
    obtain ⟨l₁, l₂, he, -⟩ := List.lookup_eq_some_iff.1 hl
    exact ⟨(c.scope, members), by simp [he], hin⟩

/-! ## All scopes -/

/-- Two variables are the endpoints of a connection of the kind, among those `keep` admits. -/
def Linked (flat : FlatModel) (connections : List InstanceConnection) (kind : PairKind)
    (keep : InstanceConnection → Prop) (x y : VarName) : Prop :=
  ∃ c ∈ connections, keep c ∧ pairKind flat c.a c.b = some kind ∧ c.a = x ∧ c.b = y

/-- The sets are the components: of each scope's flow and stream pairs, and of all potential pairs. -/
structure ExactSets (flat : FlatModel) (connections : List InstanceConnection) (sets : List ConnectionSet)
    (streams : List StreamConnectionSet) : Prop where
  flow : ∀ scope, SetsOf (Linked flat connections .flow (·.scope = scope)) Set.Nontrivial (flowSets sets scope)
  stream : ∀ scope, SetsOf (Linked flat connections .stream (·.scope = scope)) (fun _ => True)
    (streamSetsIn streams scope)
  potential : SetsOf (Linked flat connections .potential fun _ => True) Set.Nontrivial (potentialSets sets)

theorem linked_scope (kind : PairKind) (scope : String) :
    (fun x y => (x, y) ∈ kindPairs flat kind (connectionsIn (connectionsByScope connections) scope)) =
      Linked flat connections kind (·.scope = scope) := by
  funext x y
  rw [(connectionsByScope_spec connections).2, mem_kindPairs]
  simp [Linked, and_assoc]

theorem linked_all :
    (fun x y => (x, y) ∈ (connectionsByScope connections).flatMap fun scope => kindPairs flat .potential scope.2) =
      Linked flat connections .potential fun _ => True := by
  funext x y
  rw [List.mem_flatMap, Linked]
  simp only [mem_kindPairs, true_and, eq_iff_iff]
  constructor
  · rintro ⟨scope, hscope, c, hc, h⟩
    rw [mem_connectionsByScope hscope] at hc
    exact ⟨c, List.mem_of_mem_filter hc, h⟩
  · rintro ⟨c, hc, h⟩
    obtain ⟨scope, hscope, hmem⟩ := exists_scope hc
    exact ⟨scope, hscope, c, hmem, h⟩

theorem buildConnectionSets_outcome (hdeclared : Declared flat connections) :
    Outcome (buildConnectionSets flat expand connections)
      (fun result => ExactSets flat connections result.1 result.2 ∧ ∀ c ∈ connections, Accepted flat c.a c.b)
      (Rejected flat connections) := by
  unfold buildConnectionSets
  have hscopes : Outcome ((connectionsByScope connections).foldlM
      (processScope flat expand (firstSpans connections)) ⟨UnionFind.new, [], []⟩)
      (Found flat (connectionsByScope connections)) (Rejected flat connections) := by
    refine Outcome.foldlM (Found flat) (fun pre scope post found hl hfound => ?_) found_start
    have hmem : scope ∈ connectionsByScope connections := hl ▸ by simp
    have hmembers := mem_connectionsByScope hmem
    have hnodup := (connectionsByScope_spec connections).1
    rw [hl, List.map_append, List.map_cons] at hnodup
    refine processScope_outcome hfound (fun hin => ?_) (fun c hc => ?_) fun c hc => ?_
    · exact (List.nodup_append.1 hnodup).2.2 _ hin _ (by simp) rfl
    · exact hdeclared c (List.mem_of_mem_filter (hmembers ▸ hc))
    · exact List.mem_of_mem_filter (hmembers ▸ hc)
  refine hscopes.bind fun found hfound => ?_
  obtain ⟨uf, sets, hsets, hpart⟩ := getSets_represents hfound.potential
  rw [linked_all] at hpart
  have hpart' : Partitions (fun x y => (x, y) ∈ kindPairs flat .potential connections) (sets.map (·.2)) := by
    convert hpart using 1
    funext x y
    simp [mem_kindPairs, Linked]
  simp only [hsets, lift_some]
  refine (connectionSetsOf_outcome .potential "" sets fun vars hvars => endpoint_of_partitions hpart' hvars).bind
    fun potential hpotential => .pure ⟨⟨fun scope => ?_, fun scope => ?_, ?_⟩, fun c hc => ?_⟩
  · have hfilter : flowSets (found.result ++ potential) scope = flowSets found.result scope := by
      unfold flowSets
      rw [List.filter_append, List.map_append]
      have hnone : potential.filter (fun set => set.kind = .flow ∧ set.scope = scope) = [] :=
        List.filter_eq_nil_iff.2 fun set hset => by simp [(hpotential.2 set hset).1]
      rw [hnone, List.map_nil, List.append_nil]
    rw [hfilter, ← linked_scope]
    exact hfound.flow scope
  · rw [← linked_scope]
    exact hfound.stream scope
  · have hfilter : potentialSets (found.result ++ potential) = potential.map (·.vars) := by
      unfold potentialSets
      rw [List.filter_append, List.map_append]
      have hnone : found.result.filter (fun set => set.kind = .potential) = [] :=
        List.filter_eq_nil_iff.2 fun set hset => by simp [(hfound.kinds set hset).1]
      have hall : potential.filter (fun set => set.kind = .potential) = potential :=
        List.filter_eq_self.2 fun set hset => by simp [(hpotential.2 set hset).1]
      rw [hnone, hall, List.map_nil, List.nil_append]
    rw [hfilter, hpotential.1]
    exact setsOf_nontrivial_of_partitions hpart
  · obtain ⟨scope, hscope, hmem⟩ := exists_scope hc
    exact hfound.accepted scope hscope c hmem

/-! ## Other orders -/

def InstanceConnection.swap (c : InstanceConnection) : InstanceConnection := { c with a := c.b, b := c.a }

/-- The same connections in another order, some with their endpoints swapped. -/
def Reordered (left right : List InstanceConnection) : Prop :=
  ∃ middle, left.Perm middle ∧ List.Forall₂ (fun c d => d = c ∨ d = c.swap) middle right

def SameSets (left right : List (List VarName)) : Prop :=
  ∀ S : Set VarName, (∃ vars ∈ left, {v | v ∈ vars} = S) ↔ ∃ vars ∈ right, {v | v ∈ vars} = S

/-- The flow and stream partitions of each scope and the potential partition agree. -/
structure SamePartitions (left right : List ConnectionSet × List StreamConnectionSet) : Prop where
  flow : ∀ scope, SameSets (flowSets left.1 scope) (flowSets right.1 scope)
  stream : ∀ scope, SameSets (streamSetsIn left.2 scope) (streamSetsIn right.2 scope)
  potential : SameSets (potentialSets left.1) (potentialSets right.1)

theorem isComponent_congr {R R' : VarName → VarName → Prop} (h : ∀ a b, (R a b ∨ R b a) ↔ (R' a b ∨ R' b a))
    (S : Set VarName) : IsComponent R S ↔ IsComponent R' S := by
  unfold UnionFind.IsComponent
  have hgen : ∀ x, {z | Relation.EqvGen R x z} = {z | Relation.EqvGen R' x z} := fun x =>
    Set.ext fun z => eqvGen_congr_symm h x z
  simp only [h, hgen]

theorem SetsOf.same {R R' : VarName → VarName → Prop} {P : Set VarName → Prop} {left right : List (List VarName)}
    (hl : SetsOf R P left) (hr : SetsOf R' P right) (h : ∀ a b, (R a b ∨ R b a) ↔ (R' a b ∨ R' b a)) :
    SameSets left right := fun S => by
  rw [hl.component, hr.component, isComponent_congr h]

theorem Reordered.mem {connections connections' : List InstanceConnection} (h : Reordered connections connections') :
    (∀ c ∈ connections', ∃ d ∈ connections, c = d ∨ c = d.swap) ∧
      ∀ d ∈ connections, ∃ c ∈ connections', c = d ∨ c = d.swap := by
  obtain ⟨middle, hperm, hpairs⟩ := h
  have key : ∀ {middle right : List InstanceConnection}, List.Forall₂ (fun c d => d = c ∨ d = c.swap) middle right →
      (∀ c ∈ right, ∃ d ∈ middle, c = d ∨ c = d.swap) ∧ ∀ d ∈ middle, ∃ c ∈ right, c = d ∨ c = d.swap := by
    intro middle right hpairs
    induction hpairs with
    | nil => simp
    | cons hd _ ih =>
      simp only [List.mem_cons, forall_eq_or_imp, exists_eq_or_imp]
      refine ⟨⟨.inl hd, fun c hc => .inr (ih.1 c hc)⟩, .inl hd, fun d hd => .inr (ih.2 d hd)⟩
  obtain ⟨hright, hmiddle⟩ := key hpairs
  refine ⟨fun c hc => ?_, fun d hd => hmiddle d (hperm.mem_iff.1 hd)⟩
  obtain ⟨d, hd, h⟩ := hright c hc
  exact ⟨d, hperm.mem_iff.2 hd, h⟩

theorem linked_reordered {connections connections' : List InstanceConnection} (h : Reordered connections connections')
    (kind : PairKind) {keep : InstanceConnection → Prop} (hkeep : ∀ c, keep c ↔ keep c.swap) (x y : VarName) :
    (Linked flat connections kind keep x y ∨ Linked flat connections kind keep y x) ↔
      (Linked flat connections' kind keep x y ∨ Linked flat connections' kind keep y x) := by
  have key : ∀ {left right : List InstanceConnection}, (∀ d ∈ left, ∃ c ∈ right, c = d ∨ c = d.swap) → ∀ x y,
      Linked flat left kind keep x y → Linked flat right kind keep x y ∨ Linked flat right kind keep y x := by
    rintro left right hmem x y ⟨d, hd, hk, hkind, rfl, rfl⟩
    obtain ⟨c, hc, rfl | rfl⟩ := hmem d hd
    · exact .inl ⟨c, hc, hk, hkind, rfl, rfl⟩
    · exact .inr ⟨d.swap, hc, (hkeep d).1 hk, (pairKind_comm flat d.b d.a).trans hkind, rfl, rfl⟩
  obtain ⟨hright, hleft⟩ := h.mem
  have hright' : ∀ c ∈ connections', ∃ d ∈ connections, d = c ∨ d = c.swap := by
    intro c hc
    obtain ⟨d, hd, rfl | rfl⟩ := hright c hc
    · exact ⟨c, hd, .inl rfl⟩
    · exact ⟨d, hd, .inr rfl⟩
  constructor
  · rintro (hxy | hyx)
    · exact key hleft x y hxy
    · exact (key hleft y x hyx).symm
  · rintro (hxy | hyx)
    · exact key hright' x y hxy
    · exact (key hright' y x hyx).symm

/-- Accepted connections between declared endpoints have exactly the components of their pairs as sets. The same
connections in any other order, with any endpoints swapped, have the same partitions, unless they are rejected
because a connection has no span. Finds end after any operations. -/
theorem buildConnectionSets_exact (flat : FlatModel) (expand : Expansion) {connections : List InstanceConnection}
    (hdeclared : Declared flat connections) {sets : List ConnectionSet} {streams : List StreamConnectionSet}
    (h : buildConnectionSets flat expand connections = pure (sets, streams)) :
    ExactSets flat connections sets streams ∧
      (∀ connections', Reordered connections connections' →
        (∃ result, buildConnectionSets flat expand connections' = pure result ∧
          SamePartitions (sets, streams) result) ∨
        (∃ reason, buildConnectionSets flat expand connections' = throw (.missingSourceContext reason)) ∧
          ∃ c ∈ connections, c.span.isDummy) ∧
      ∀ operations : List UnionFind.Operation, ∃ s, operations.foldlM UnionFind.apply UnionFind.new = some s ∧
        ∀ idx < s.parent.length, ∃ s' root, s.findIdx idx = some (s', root) := by
  obtain ⟨hexact, haccepted⟩ := (buildConnectionSets_outcome hdeclared).of_pure h
  refine ⟨hexact, fun connections' hreordered => ?_, UnionFind.apply_total⟩
  obtain ⟨hmem, -⟩ := hreordered.mem
  have hdeclared' : Declared flat connections' := by
    intro c hc
    obtain ⟨d, hd, rfl | rfl⟩ := hmem c hc
    · exact hdeclared c hd
    · exact (hdeclared d hd).symm
  have houtcome : Outcome (buildConnectionSets flat expand connections') _ _ := buildConnectionSets_outcome hdeclared'
  rcases houtcome with ⟨result, hresult, hexact', -⟩ | ⟨error, herror, hrejected⟩
  · refine .inl ⟨result, hresult, fun scope => ?_, fun scope => ?_, ?_⟩
    · exact (hexact.flow scope).same (hexact'.flow scope) (linked_reordered hreordered _ fun _ => Iff.rfl)
    · exact (hexact.stream scope).same (hexact'.stream scope) (linked_reordered hreordered _ fun _ => Iff.rfl)
    · exact hexact.potential.same hexact'.potential (linked_reordered hreordered _ fun _ => Iff.rfl)
  · -- every pair of the other order is accepted, so only a span can be missing
    rcases hrejected with ⟨c, hc, herror'⟩ | ⟨⟨reason, rfl⟩, c, hc, hdummy⟩
    · have hok : Accepted flat c.a c.b := by
        obtain ⟨d, hd, rfl | rfl⟩ := hmem c hc
        · exact haccepted c hd
        · exact accepted_comm (haccepted d hd)
      obtain ⟨pairing, hok⟩ := hok
      rw [hok] at herror'
      cases herror'
    · refine .inr ⟨⟨reason, herror⟩, ?_⟩
      obtain ⟨d, hd, rfl | rfl⟩ := hmem c hc
      · exact ⟨c, hd, hdummy⟩
      · exact ⟨d, hd, hdummy⟩

end

/-! ## Two pins and a sensor -/

def pinVariable (flow : Bool) : Variable := ⟨.continuous, flow, false, [], true, ⟨1, 0, 9⟩⟩

def pinModel : FlatModel :=
  ⟨[("a.v", pinVariable false), ("a.i", pinVariable true), ("b.v", pinVariable false), ("b.i", pinVariable true),
    ("sensor.v", pinVariable false)]⟩

def pinConnections : List InstanceConnection :=
  [⟨"a.v", "b.v", ⟨1, 10, 20⟩, ""⟩, ⟨"a.i", "b.i", ⟨1, 10, 20⟩, ""⟩, ⟨"sensor.v", "b.v", ⟨1, 30, 40⟩, "top"⟩]

def noExpansion : Expansion := fun _ _ build => pure build

theorem pinConnections_exact :
    ExactSets pinModel pinConnections
        [⟨["a.i", "b.i"], .flow, "", ⟨1, 10, 20⟩⟩, ⟨["a.v", "b.v", "sensor.v"], .potential, "", ⟨1, 10, 20⟩⟩] [] := by
  have hbuild : buildConnectionSets pinModel noExpansion pinConnections = pure
      ([⟨["a.i", "b.i"], .flow, "", ⟨1, 10, 20⟩⟩, ⟨["a.v", "b.v", "sensor.v"], .potential, "", ⟨1, 10, 20⟩⟩], []) := by
    rfl
  have hdeclared : Declared pinModel pinConnections := by
    unfold Declared
    decide
  exact (buildConnectionSets_exact pinModel noExpansion hdeclared hbuild).1

end Rumoca.Flatten
