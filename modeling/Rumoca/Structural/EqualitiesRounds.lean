import Mathlib.Data.List.Perm.Basic
import Rumoca.Structural.EqualitiesClasses
/-!
# The rounds of inferred equalities

A round infers edges from the anchors, adds them to the closures and picks the
anchors afresh. Two states with one closure and one set of candidates give the
same anchors, so a round infers the same edges from both, and changes both or
neither.
-/

namespace Rumoca.DaeTransform

open Rumoca.Dae Rumoca.Lib SignedClasses

/-! ## Edges in the two layers -/

def InferredEqualityEdge.signed (e : InferredEqualityEdge) : Nat × Nat × Bool := (e.left, e.right, e.opposite)

def affineEdges (es : List InferredEqualityEdge) : List (Nat × Nat × Bool) := es.map (·.signed)

def exactEdges (es : List InferredEqualityEdge) : List (Nat × Nat × Bool) :=
  (es.filter fun e => !e.displaced).map (·.signed)

theorem affineEdges_append (es fs : List InferredEqualityEdge) :
    affineEdges (es ++ fs) = affineEdges es ++ affineEdges fs := List.map_append

theorem exactEdges_append (es fs : List InferredEqualityEdge) :
    exactEdges (es ++ fs) = exactEdges es ++ exactEdges fs := by
  rw [exactEdges, List.filter_append, List.map_append]
  rfl

/-- The layers hold the closures of the edges. -/
structure Closes (n : Nat) (es : List InferredEqualityEdge) (eq : SystemEqualities) : Prop where
  exact : Represents n (exactEdges es) eq.exact
  affine : Represents n (affineEdges es) eq.affine

/-- The closures of some edges hold another one already. -/
def Implied (es : List InferredEqualityEdge) (e : InferredEqualityEdge) : Prop :=
  Signed (affineEdges es) e.left e.right e.opposite ∧
    (e.displaced = false → Signed (exactEdges es) e.left e.right e.opposite)

/-- Two lists of edges with one closure in each layer. -/
structure SameClosure (es fs : List InferredEqualityEdge) : Prop where
  exact : SameSigns (exactEdges es) (exactEdges fs)
  affine : SameSigns (affineEdges es) (affineEdges fs)

theorem SameClosure.implied_iff {es fs : List InferredEqualityEdge} (h : SameClosure es fs) (e : InferredEqualityEdge) :
    Implied es e ↔ Implied fs e :=
  and_congr (h.affine _ _ _) (imp_congr_right fun _ => h.exact _ _ _)

theorem sameClosure_append_of_implied {es fs : List InferredEqualityEdge} (h : ∀ e ∈ fs, Implied es e) :
    SameClosure (es ++ fs) es where
  exact := by
    rw [exactEdges_append]
    refine sameSigns_append_of_signed fun p hp => ?_
    obtain ⟨e, he, rfl⟩ := List.mem_map.1 hp
    obtain ⟨he, hd⟩ := List.mem_filter.1 he
    exact (h e he).2 (by simpa using hd)
  affine := by
    rw [affineEdges_append]
    refine sameSigns_append_of_signed fun p hp => ?_
    obtain ⟨e, he, rfl⟩ := List.mem_map.1 hp
    exact (h e he).1

theorem SameClosure.append {es es' fs fs' : List InferredEqualityEdge} (h : SameClosure es fs)
    (h' : ∀ e, e ∈ es' ↔ e ∈ fs') : SameClosure (es ++ es') (fs ++ fs') where
  exact := by
    rw [exactEdges_append, exactEdges_append]
    refine h.exact.append fun p => ?_
    simp only [exactEdges, List.mem_map, List.mem_filter, h']
  affine := by
    rw [affineEdges_append, affineEdges_append]
    refine h.affine.append fun p => ?_
    simp only [affineEdges, List.mem_map, h']

def layersRoom (n : Nat) (eq : SystemEqualities) : Nat := room n eq.exact + room n eq.affine

/-- What recording edges has done to the layers: they hold the closure with the
edges, and the flag says that it is a new one. -/
structure Recorded (n : Nat) (es fs : List InferredEqualityEdge) (eq : SystemEqualities) (r : SystemEqualities × Bool) :
    Prop where
  closes : Closes n (es ++ fs) r.1
  changed_iff : r.2 = true ↔ ∃ e ∈ fs, ¬ Implied es e
  room_lt : r.2 = true → layersRoom n r.1 < layersRoom n eq
  unchanged : r.2 = false → r.1 = eq

theorem Closes.alias_ {n : Nat} {es : List InferredEqualityEdge} {eq : SystemEqualities} (h : Closes n es eq)
    {e : InferredEqualityEdge} (hl : e.left < n) (hr : e.right < n) :
    Recorded n es [e] eq (eq.alias_ e.left e.right e.opposite e.displaced) := by
  have ha := h.affine.union hl hr e.opposite
  have hx := h.exact.union hl hr e.opposite
  unfold SystemEqualities.alias_
  cases hd : e.displaced with
  | true =>
    have hexact : exactEdges (es ++ [e]) = exactEdges es := by
      rw [exactEdges_append]
      simp [exactEdges, hd]
    refine ⟨⟨by rw [hexact]; exact h.exact, by rw [affineEdges_append]; exact ha.represents⟩, ?_, fun hc => ?_, fun hc => ?_⟩
    · simp only [if_true, List.mem_singleton, exists_eq_left, Implied, hd, Bool.true_eq_false, false_imp_iff, and_true]
      exact ha.changed_iff
    · exact Nat.add_lt_add_left (ha.room_lt hc) _
    · simp only [if_true] at hc ⊢
      rw [ha.unchanged hc]
  | false =>
    have hexact : exactEdges (es ++ [e]) = exactEdges es ++ [e.signed] := by
      rw [exactEdges_append]
      simp [exactEdges, hd]
    simp only [Bool.false_eq_true, if_false]
    refine ⟨⟨by rw [hexact]; exact hx.represents, by rw [affineEdges_append]; exact ha.represents⟩, ?_, fun hc => ?_, fun hc => ?_⟩
    · simp only [List.mem_singleton, exists_eq_left, Implied, hd, forall_const, Bool.or_eq_true]
      rw [not_and_or]
      exact or_congr ha.changed_iff hx.changed_iff
    · have hroom : ∀ {c : SignedClasses} {r : SignedClasses × Bool}, (r.2 = true → room n r.1 < room n c) →
          (r.2 = false → r.1 = c) → room n r.1 ≤ room n c := by
        intro c r hlt heq
        cases hr : r.2 with
        | true => exact (hlt hr).le
        | false => rw [heq hr]
      rcases Bool.or_eq_true _ _ ▸ hc with hc | hc
      · exact Nat.add_lt_add_of_le_of_lt (hroom hx.room_lt hx.unchanged) (ha.room_lt hc)
      · exact Nat.add_lt_add_of_lt_of_le (hx.room_lt hc) (hroom ha.room_lt ha.unchanged)
    · rw [Bool.or_eq_false_iff] at hc
      rw [ha.unchanged hc.1, hx.unchanged hc.2]

/-- Recording a list of edges: only those that the present edges do not imply matter to the flag. -/
theorem Closes.record {n : Nat} {es : List InferredEqualityEdge} {eq : SystemEqualities} (h : Closes n es eq)
    {fs : List InferredEqualityEdge} (hfs : ∀ e ∈ fs, e.left < n ∧ e.right < n) :
    Recorded n es fs eq (fs.foldl recordInferredEdge (eq, false)) := by
  refine foldl_inv (fun pre s => Recorded n es pre eq s) (fun pre e post s hl hs => ?_) ?_
  · have hstep := hs.closes.alias_ (hfs e (by simp [hl])).1 (hfs e (by simp [hl])).2
    unfold recordInferredEdge
    simp only
    cases hc : s.2 with
    | true =>
      have hlt := hs.room_lt hc
      refine ⟨by rw [← List.append_assoc]; exact hstep.closes, ?_, fun _ => ?_, fun h => by simp at h⟩
      · refine iff_of_true rfl ?_
        obtain ⟨e', he', hne⟩ := hs.changed_iff.1 hc
        exact ⟨e', List.mem_append_left _ he', hne⟩
      · cases hc' : (s.1.alias_ e.left e.right e.opposite e.displaced).2 with
        | true => exact (hstep.room_lt hc').trans hlt
        | false => rwa [hstep.unchanged hc']
    | false =>
      -- the edges recorded so far are implied, so the closure is still that of `es`
      have hall : ∀ e ∈ pre, Implied es e := by
        intro e' he'
        by_contra hne
        rw [hs.changed_iff.2 ⟨e', he', hne⟩] at hc
        cases hc
      have himp := (sameClosure_append_of_implied hall).implied_iff e
      have heq := hs.unchanged hc
      refine ⟨by rw [← List.append_assoc]; exact hstep.closes, ?_, fun h => ?_, fun h => ?_⟩
      · rw [Bool.false_or, hstep.changed_iff]
        simp only [List.mem_singleton, exists_eq_left, himp, List.mem_append, or_and_right, exists_or]
        exact ⟨.inr, fun h => h.resolve_left fun ⟨e', he', hne⟩ => hne (hall e' he')⟩
      · rw [Bool.false_or] at h
        exact heq ▸ hstep.room_lt h
      · rw [Bool.false_or] at h
        exact (hstep.unchanged h).trans heq
  · refine ⟨by rw [List.append_nil]; exact h, by simp, by simp, fun _ => rfl⟩

/-! ## Anchors of both layers -/

section Rounds

variable {view : DaeView} {staticOne : Expr → Bool} {n : Nat} {es : List InferredEqualityEdge}
  {candidates : List (Nat × EqualityAnchor)} {eq : SystemEqualities}

/-- The layers hold the closures of the edges, and each class its best candidate. -/
structure Settled (view : DaeView) (n : Nat) (es : List InferredEqualityEdge)
    (candidates : List (Nat × EqualityAnchor)) (eq : SystemEqualities) : Prop where
  closes : Closes n es eq
  exact : Anchored view n candidates eq.exact
  affine : Anchored view n candidates eq.affine

theorem foldl_offerBoth (cs : List (Nat × EqualityAnchor)) (eq : SystemEqualities) :
    cs.foldl (offerBoth view) eq = { eq with
      exact := cs.foldl (fun c p => c.offerAnchor view p.1 p.2) eq.exact
      affine := cs.foldl (fun c p => c.offerAnchor view p.1 p.2) eq.affine } := by
  induction cs generalizing eq with
  | nil => rfl
  | cons p cs ih => rw [List.foldl_cons, ih, offerBoth, List.foldl_cons, List.foldl_cons]

def anchorCandidates (view : DaeView) (staticOne : Expr → Bool) (pinned : List (Nat × EqualityAnchor)) :
    List (Nat × EqualityAnchor) := stateCandidates view staticOne ++ pinned

theorem Closes.resolveAnchors (h : Closes n es eq) {pinned : List (Nat × EqualityAnchor)}
    (hc : ∀ p ∈ anchorCandidates view staticOne pinned, p.1 < n) :
    Settled view n es (anchorCandidates view staticOne pinned) (resolveAnchors view staticOne eq pinned) := by
  unfold DaeTransform.resolveAnchors
  rw [← List.foldl_append, foldl_offerBoth]
  obtain ⟨hx, hxa⟩ := h.exact.offerAnchors hc
  obtain ⟨ha, haa⟩ := h.affine.offerAnchors hc
  exact ⟨⟨hx, ha⟩, hxa, haa⟩

theorem Settled.valueAnchorOf (h : Settled view n es candidates eq) (hd : CandidatesDistinct view n candidates) (x : Nat) :
    IsValueAnchor view (exactEdges es) candidates x (eq.valueAnchorOf x) := h.closes.exact.valueAnchorOf h.exact hd x

theorem Settled.affineAnchorOf (h : Settled view n es candidates eq) (hd : CandidatesDistinct view n candidates) (x : Nat) :
    IsValueAnchor view (affineEdges es) candidates x (eq.affine.valueAnchorOf x) :=
  h.closes.affine.valueAnchorOf h.affine hd x

/-- Two equalities that answer every question alike. -/
structure SameAnchors (eq eq' : SystemEqualities) : Prop where
  value : ∀ x, eq.valueAnchorOf x = eq'.valueAnchorOf x
  derivative : ∀ x, eq.anchorOf x = eq'.anchorOf x

theorem Settled.sameAnchors {fs : List InferredEqualityEdge} {candidates' : List (Nat × EqualityAnchor)}
    {eq' : SystemEqualities} (h : Settled view n es candidates eq) (h' : Settled view n fs candidates' eq')
    (hd : CandidatesDistinct view n candidates) (hd' : CandidatesDistinct view n candidates') (hes : SameClosure es fs)
    (hc : ∀ p, p ∈ candidates ↔ p ∈ candidates') : SameAnchors eq eq' where
  value x := isValueAnchor_unique hes.exact hc hd (h.valueAnchorOf hd x) (h'.valueAnchorOf hd' x)
  derivative x := by
    have haffine := isValueAnchor_unique hes.affine hc hd (h.affineAnchorOf hd x) (h'.affineAnchorOf hd' x)
    rw [SystemEqualities.anchorOf, SystemEqualities.anchorOf, anchorOf_eq, anchorOf_eq, haffine]

/-! ## A round -/

theorem eliminateInvariants_congr {eq' : SystemEqualities} (h : SameAnchors eq eq') (vars remaining : List (Nat × Bool))
    (offsetFree : Bool) : eliminateInvariants eq vars remaining offsetFree = eliminateInvariants eq' vars remaining offsetFree := by
  induction vars generalizing remaining offsetFree with
  | nil => rfl
  | cons p rest ih =>
    unfold eliminateInvariants
    rw [h.derivative, h.value]
    simp only [ih]

theorem SameAnchors.infer {eq' : SystemEqualities} (h : SameAnchors eq eq') (o : AdditiveOperands) :
    o.aliasAfterInvariantElimination view eq = o.aliasAfterInvariantElimination view eq' := by
  unfold AdditiveOperands.aliasAfterInvariantElimination
  rw [eliminateInvariants_congr h]

theorem isStateOrAlgebraicVariable_lt {id : Nat} (h : isStateOrAlgebraicVariable view id = true) : id < view.vars.length := by
  unfold isStateOrAlgebraicVariable at h
  split at h
  · next var hvar => exact (List.getElem?_eq_some_iff.1 hvar).1
  · cases h

theorem infer_spec {o : AdditiveOperands} {e : InferredEqualityEdge}
    (h : o.aliasAfterInvariantElimination view eq = some e) : ∃ leftNegated rightNegated offsetFree,
      eliminateInvariants eq o.vars [] o.offsetFree =
        some ([(e.left, leftNegated), (e.right, rightNegated)], offsetFree) ∧
      e.opposite = (leftNegated == rightNegated) ∧ e.displaced = !offsetFree ∧ e.left ≠ e.right ∧
      isStateOrAlgebraicVariable view e.left = true ∧ isStateOrAlgebraicVariable view e.right = true := by
  unfold AdditiveOperands.aliasAfterInvariantElimination at h
  split at h
  · cases h
  · split at h
    · next left leftNegated right rightNegated offsetFree heq =>
      split at h
      · next htest =>
        cases h
        simp only [Bool.and_eq_true, decide_eq_true_eq] at htest
        exact ⟨leftNegated, rightNegated, offsetFree, heq, rfl, rfl, htest.1.1, htest.1.2, htest.2⟩
      · cases h
    · cases h

def inferredEdges (view : DaeView) (deferred : List AdditiveOperands) (eq : SystemEqualities) : List InferredEqualityEdge :=
  deferred.filterMap fun operands => operands.aliasAfterInvariantElimination view eq

theorem inferredEdges_lt {deferred : List AdditiveOperands} {e : InferredEqualityEdge}
    (he : e ∈ inferredEdges view deferred eq) : e.left < view.vars.length ∧ e.right < view.vars.length := by
  obtain ⟨o, -, ho⟩ := List.mem_filterMap.1 he
  obtain ⟨-, -, -, -, -, -, -, hl, hr⟩ := infer_spec ho
  exact ⟨isStateOrAlgebraicVariable_lt hl, isStateOrAlgebraicVariable_lt hr⟩

/-- A round adds the edges it infers to the closures. It changes something when
one of them is new. -/
structure Rounded (view : DaeView) (staticOne : Expr → Bool) (deferred : List AdditiveOperands)
    (pinned : List (Nat × EqualityAnchor)) (es : List InferredEqualityEdge) (eq : SystemEqualities)
    (r : SystemEqualities × Bool) : Prop where
  settled : r.2 = true →
    Settled view view.vars.length (es ++ inferredEdges view deferred eq) (anchorCandidates view staticOne pinned) r.1
  changed_iff : r.2 = true ↔ ∃ e ∈ inferredEdges view deferred eq, ¬ Implied es e
  room_lt : r.2 = true → layersRoom view.vars.length r.1 < layersRoom view.vars.length eq
  unchanged : r.2 = false → r.1 = eq

theorem offerAnchor_room (c : SignedClasses) (x : Nat) (candidate : EqualityAnchor) :
    room n (c.offerAnchor view x candidate) = room n c := by
  unfold SignedClasses.offerAnchor
  simp only
  split
  · rfl
  · split <;> rfl

theorem foldl_offerAnchor_room (cs : List (Nat × EqualityAnchor)) (c : SignedClasses) :
    room n (cs.foldl (fun c p => c.offerAnchor view p.1 p.2) c) = room n c := by
  induction cs generalizing c with
  | nil => rfl
  | cons p cs ih => rw [List.foldl_cons, ih, offerAnchor_room]

theorem resolveAnchors_room (eq : SystemEqualities) (pinned : List (Nat × EqualityAnchor)) :
    layersRoom n (resolveAnchors view staticOne eq pinned) = layersRoom n eq := by
  unfold resolveAnchors
  rw [← List.foldl_append, foldl_offerBoth, layersRoom, foldl_offerAnchor_room, foldl_offerAnchor_room]
  rfl

theorem Settled.closeRound {pinned : List (Nat × EqualityAnchor)}
    (h : Settled view view.vars.length es (anchorCandidates view staticOne pinned) eq) (deferred : List AdditiveOperands)
    (hc : ∀ p ∈ anchorCandidates view staticOne pinned, p.1 < view.vars.length) :
    Rounded view staticOne deferred pinned es eq (closeRound view staticOne deferred pinned eq) := by
  have hrecord : Recorded view.vars.length es (inferredEdges view deferred eq) eq
      ((inferredEdges view deferred eq).foldl recordInferredEdge (eq, false)) :=
    h.closes.record fun _ => inferredEdges_lt
  unfold DaeTransform.closeRound
  simp only
  rw [← inferredEdges]
  cases hchanged : ((inferredEdges view deferred eq).foldl recordInferredEdge (eq, false)).2 with
  | true =>
    refine ⟨fun _ => hrecord.closes.resolveAnchors hc, ?_, fun _ => ?_, fun hf => by cases hf⟩
    · exact iff_of_true rfl (hrecord.changed_iff.1 hchanged)
    · exact (resolveAnchors_room _ _).trans_lt (hrecord.room_lt hchanged)
  | false =>
    refine ⟨(fun hf => by cases hf), ?_, (fun hf => by cases hf), fun _ => hrecord.unchanged hchanged⟩
    rw [← hrecord.changed_iff, hchanged]
    rfl

/-! ## The run of rounds -/

theorem mem_anchorCandidates_iff (view : DaeView) (staticOne : Expr → Bool) {pinned pinned' : List (Nat × EqualityAnchor)} (h : ∀ p, p ∈ pinned ↔ p ∈ pinned')
    (p : Nat × EqualityAnchor) :
    p ∈ anchorCandidates view staticOne pinned ↔ p ∈ anchorCandidates view staticOne pinned' := by
  rw [anchorCandidates, anchorCandidates, List.mem_append, List.mem_append, h]

/-- Two settled states of the loop with one closure, for two orders of the pins. -/
def SameRun (view : DaeView) (staticOne : Expr → Bool) (pinned pinned' : List (Nat × EqualityAnchor))
    (eq eq' : SystemEqualities) : Prop :=
  ∃ es es', Settled view view.vars.length es (anchorCandidates view staticOne pinned) eq ∧
    Settled view view.vars.length es' (anchorCandidates view staticOne pinned') eq' ∧ SameClosure es es'

section Run

variable {pinned pinned' : List (Nat × EqualityAnchor)} {deferred deferred' : List AdditiveOperands}
  {eq' : SystemEqualities}

theorem SameRun.sameAnchors (h : SameRun view staticOne pinned pinned' eq eq')
    (hd : CandidatesDistinct view view.vars.length (anchorCandidates view staticOne pinned))
    (hp : ∀ p, p ∈ pinned ↔ p ∈ pinned') : SameAnchors eq eq' := by
  obtain ⟨es, es', hs, hs', hes⟩ := h
  have hc := mem_anchorCandidates_iff view staticOne hp
  exact hs.sameAnchors hs' hd (hd.of_mem_iff hc) hes hc

/-- One round from two states with one closure leads to two such states, and changes both or neither. -/
theorem SameRun.closeRound (h : SameRun view staticOne pinned pinned' eq eq')
    (hd : CandidatesDistinct view view.vars.length (anchorCandidates view staticOne pinned))
    (hp : ∀ p, p ∈ pinned ↔ p ∈ pinned') (hdeferred : ∀ o, o ∈ deferred ↔ o ∈ deferred') :
    SameRun view staticOne pinned pinned' (closeRound view staticOne deferred pinned eq).1
        (closeRound view staticOne deferred' pinned' eq').1 ∧
      (closeRound view staticOne deferred pinned eq).2 = (closeRound view staticOne deferred' pinned' eq').2 := by
  have hsame := h.sameAnchors hd hp
  obtain ⟨es, es', hs, hs', hes⟩ := h
  have hd' := hd.of_mem_iff (mem_anchorCandidates_iff view staticOne hp)
  have hr := hs.closeRound deferred hd.lt
  have hr' := hs'.closeRound deferred' hd'.lt
  have hinferred : ∀ e, e ∈ inferredEdges view deferred eq ↔ e ∈ inferredEdges view deferred' eq' := by
    intro e
    simp only [inferredEdges, List.mem_filterMap, hdeferred, hsame.infer]
  have hflag : (DaeTransform.closeRound view staticOne deferred pinned eq).2 =
      (DaeTransform.closeRound view staticOne deferred' pinned' eq').2 := by
    rw [Bool.eq_iff_iff, hr.changed_iff, hr'.changed_iff]
    simp only [hinferred, hes.implied_iff]
  refine ⟨?_, hflag⟩
  cases hchanged : (DaeTransform.closeRound view staticOne deferred pinned eq).2 with
  | true => exact ⟨_, _, hr.settled hchanged, hr'.settled (hflag ▸ hchanged), hes.append hinferred⟩
  | false =>
    rw [hr.unchanged hchanged, hr'.unchanged (hflag ▸ hchanged)]
    exact ⟨es, es', hs, hs', hes⟩

theorem SameRun.closeInvariantBalances (h : SameRun view staticOne pinned pinned' eq eq')
    (hd : CandidatesDistinct view view.vars.length (anchorCandidates view staticOne pinned))
    (hp : ∀ p, p ∈ pinned ↔ p ∈ pinned') (hdeferred : ∀ o, o ∈ deferred ↔ o ∈ deferred') :
    SameRun view staticOne pinned pinned' (closeInvariantBalances view staticOne eq deferred pinned)
      (closeInvariantBalances view staticOne eq' deferred' pinned') :=
  settle_rel (SameRun view staticOne pinned pinned') (fun _ _ hrun => hrun.closeRound hd hp hdeferred) _ _ _ h

variable (deferred) in
theorem closeInvariantBalances_settled
    (hs : Settled view view.vars.length es (anchorCandidates view staticOne pinned) eq)
    (hc : ∀ p ∈ anchorCandidates view staticOne pinned, p.1 < view.vars.length) :
    ∃ es', Settled view view.vars.length es' (anchorCandidates view staticOne pinned)
      (closeInvariantBalances view staticOne eq deferred pinned) := by
  refine settle_inv (fun eq => ∃ es', Settled view view.vars.length es' (anchorCandidates view staticOne pinned) eq)
    (fun eq ⟨es, hs⟩ => ?_) _ _ ⟨es, hs⟩
  have hr := hs.closeRound deferred hc
  cases hchanged : (DaeTransform.closeRound view staticOne deferred pinned eq).2 with
  | true => exact ⟨_, hr.settled hchanged⟩
  | false =>
    rw [hr.unchanged hchanged]
    exact ⟨es, hs⟩

theorem layersRoom_le (eq : SystemEqualities) : layersRoom n eq ≤ 4 * n := by
  have hcount : ∀ p : Nat → Bool, (List.range n).countP p ≤ n := fun p =>
    List.countP_le_length.trans_eq List.length_range
  have hroom : ∀ c, room n c ≤ 2 * n := by
    intro c
    have hroots := hcount fun x => parentAt c.parent x == x
    have hflags := hcount fun x => !c.inconsistentAt x
    unfold room
    omega
  have hexact := hroom eq.exact
  have haffine := hroom eq.affine
  unfold layersRoom
  omega

variable (deferred) in
theorem closeInvariantBalances_closed
    (hs : Settled view view.vars.length es (anchorCandidates view staticOne pinned) eq)
    (hc : ∀ p ∈ anchorCandidates view staticOne pinned, p.1 < view.vars.length) :
    (closeRound view staticOne deferred pinned (closeInvariantBalances view staticOne eq deferred pinned)).2 = false := by
  obtain ⟨eq', ⟨es', hs'⟩, hquiet, heq⟩ := settle_quiet
    (fun eq => ∃ es, Settled view view.vars.length es (anchorCandidates view staticOne pinned) eq)
    (layersRoom view.vars.length)
    (fun eq ⟨es, hs⟩ => by
      have hr := hs.closeRound deferred hc
      refine ⟨?_, hr.room_lt⟩
      cases hchanged : (DaeTransform.closeRound view staticOne deferred pinned eq).2 with
      | true => exact ⟨_, hr.settled hchanged⟩
      | false =>
        rw [hr.unchanged hchanged]
        exact ⟨es, hs⟩)
    (4 * view.vars.length + 1) eq ⟨es, hs⟩ (Nat.lt_succ_of_le (layersRoom_le eq))
  rw [closeInvariantBalances, heq, (hs'.closeRound deferred hc).unchanged hquiet, hquiet]

end Run

end Rounds

end Rumoca.DaeTransform
