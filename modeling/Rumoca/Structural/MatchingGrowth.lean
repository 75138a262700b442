import Rumoca.Structural.MatchingAugment
/-!
# Growing a matching in phases

`grow_maximum_matching` starts from a seed. A phase layers the equations by
alternating distance from the unmatched ones and searches from each of these
along layers that ascend by one; an equation that is exhausted is retired for
the rest of the phase. A layer of `none` is the source's `usize::MAX`, of
which `saturating_add` makes nothing else. Stacks have their top at the head.
-/

namespace Rumoca.Structural

open Rumoca.Lib Matching

/-! ## Layers -/

structure Layering where
  layer : Nat → Option Nat
  queue : List Nat
  reachable : Bool

def layerStart (nEq : Nat) (matchEq : Nat → Option Nat) : Layering where
  layer eq := if eq < nEq ∧ matchEq eq = none then some 0 else none
  queue := (List.range nEq).filter fun eq => matchEq eq = none
  reachable := false

def layerVar (matchVar : Nat → Option Nat) (eq : Nat) (s : Layering) (var : Nat) : Layering :=
  match matchVar var with
  | none => { s with reachable := true }
  | some next =>
    if s.layer next = none then
      { s with
        layer := Function.update s.layer next ((s.layer eq).map (· + 1))
        queue := s.queue ++ [next] }
    else s

def layerTurn (rows : IncidenceRows) (matchVar : Nat → Option Nat) (s : Layering × Nat) :
    Option (Ctl (Layering × Nat) Layering) :=
  match s.1.queue[s.2]? with
  | none => some (.done s.1)
  | some eq => some (.next ((rows.row eq).foldl (layerVar matchVar eq) s.1, s.2 + 1))

def layerEquations (nEq : Nat) (rows : IncidenceRows) (matching : Matching) : Option Layering :=
  loop (layerTurn rows matching.matchVar) (nEq + 1) (layerStart nEq matching.matchEq, 0)

/-! ## One search -/

structure LayeredSearch where
  matching : Matching
  layer : Nat → Option Nat
  stack : List (Nat × Nat)

/-- The unknown each frame visited last, with its equation, from the bottom of the stack. -/
def pathEdges (rows : IncidenceRows) (stack : List (Nat × Nat)) : Option (List (Nat × Nat)) :=
  stack.reverse.mapM fun (eq, cursor) => ((rows.row eq)[cursor - 1]?).map (Prod.mk eq)

def flipStack (rows : IncidenceRows) (stack : List (Nat × Nat)) (matching : Matching) : Option Matching :=
  (pathEdges rows stack).map fun edges => edges.foldl (fun matching (eq, var) => matching.pair eq var) matching

def augmentLayeredTurn (rows : IncidenceRows) (s : LayeredSearch) : Option (Ctl LayeredSearch (LayeredSearch × Bool)) :=
  match s.stack with
  | [] => some (.done (s, false))
  | (eq, cursor) :: below =>
    match (rows.row eq)[cursor]? with
    | none => some (.next { s with layer := Function.update s.layer eq none, stack := below })
    | some var =>
      let stack := (eq, cursor + 1) :: below
      match s.matching.matchVar var with
      | none => do
        let matching ← flipStack rows stack s.matching
        some (.done ({ s with matching := matching, stack := stack }, true))
      | some next =>
        if s.layer next = (s.layer eq).map (· + 1) then some (.next { s with stack := (next, 0) :: stack })
        else some (.next { s with stack := stack })

def phaseSteps (nEq : Nat) (rows : IncidenceRows) : Nat := ∑ eq ∈ Finset.range nEq, ((rows.row eq).length + 1)

def augmentLayered (nEq : Nat) (rows : IncidenceRows) (s : LayeredSearch) : Option (LayeredSearch × Bool) :=
  loop (augmentLayeredTurn rows) (phaseSteps nEq rows + 1) s

/-! ## Phases -/

structure GrowthPhase where
  matching : Matching
  layer : Nat → Option Nat
  matched : Nat

def growFrom (nEq : Nat) (rows : IncidenceRows) (s : GrowthPhase) (start : Nat) : Option GrowthPhase :=
  if (s.matching.matchEq start).isSome then some s
  else do
    let (search, augmented) ← augmentLayered nEq rows ⟨s.matching, s.layer, [(start, 0)]⟩
    pure ⟨search.matching, search.layer, if augmented then s.matched + 1 else s.matched⟩

def growTurn (nEq : Nat) (rows : IncidenceRows) (s : Matching × Nat) : Option (Ctl (Matching × Nat) (Matching × Nat)) := do
  let layering ← layerEquations nEq rows s.1
  if layering.reachable then
    let phase ← (List.range nEq).foldlM (growFrom nEq rows) ⟨s.1, layering.layer, s.2⟩
    pure (.next (phase.matching, phase.matched))
  else pure (.done s)

def seedMatching (seed : List (Option Nat)) : Matching where
  matchEq eq := (seed[eq]?).join
  matchVar := seed.zipIdx.foldl (fun matchVar (var, eq) =>
    match var with
    | none => matchVar
    | some var => Function.update matchVar var (some eq)) fun _ => none

def growMaximumMatching (rows : IncidenceRows) (seed : List (Option Nat)) : Option (List (Option Nat) × Nat) := do
  let matched := (seed.filter (·.isSome)).length
  let (matching, matched) ← loop (growTurn seed.length rows) (seed.length + 1) (seedMatching seed, matched)
  pure ((List.range seed.length).map matching.matchEq, matched)

/-! ## What a layering says -/

section
variable {rows : IncidenceRows} {nEq : Nat} {M : Matching} {s : Layering} {eq head : Nat}

/-- The layers found so far. -/
structure LayersInv (rows : IncidenceRows) (nEq : Nat) (M : Matching) (s : Layering) : Prop where
  zero : ∀ e, s.layer e = some 0 ↔ e < nEq ∧ M.matchEq e = none
  queued : ∀ e, s.layer e ≠ none ↔ e ∈ s.queue
  nodup : s.queue.Nodup
  lt : ∀ e ∈ s.queue, e < nEq
  parent : ∀ e k, s.layer e = some (k + 1) → ∃ e', s.layer e' = some k ∧ ∃ v ∈ rows.row e', M.matchVar v = some e
  reached : s.reachable = true → ∃ e ∈ s.queue, ∃ v ∈ rows.row e, M.matchVar v = none

def Seen (M : Matching) (s : Layering) (v : Nat) : Prop :=
  (M.matchVar v = none → s.reachable = true) ∧ ∀ next, M.matchVar v = some next → s.layer next ≠ none

/-- Later states keep the queue as a prefix, and what was seen. -/
structure LayersGrow (M : Matching) (s s' : Layering) : Prop where
  queue : s.queue <+: s'.queue
  layer : ∀ e k, s.layer e = some k → s'.layer e = some k
  seen : ∀ v, Seen M s v → Seen M s' v

theorem LayersGrow.refl (s : Layering) : LayersGrow M s s := ⟨List.prefix_refl _, fun _ _ h => h, fun _ h => h⟩

theorem LayersGrow.trans {s' s'' : Layering} (h : LayersGrow M s s') (h' : LayersGrow M s' s'') : LayersGrow M s s'' :=
  ⟨h.queue.trans h'.queue, fun e k he => h'.layer e k (h.layer e k he), fun v hv => h'.seen v (h.seen v hv)⟩

theorem layerStart_inv (rows : IncidenceRows) (nEq : Nat) (M : Matching) :
    LayersInv rows nEq M (layerStart nEq M.matchEq) := by
  refine ⟨fun e => ?_, fun e => ?_, List.nodup_range.filter _, fun e he => ?_, fun e k h => ?_, fun h => ?_⟩
  · simp only [layerStart]
    split <;> simp [*]
  · simp only [layerStart]
    split <;> simp [*]
  · exact List.mem_range.1 (List.mem_filter.1 he).1
  · simp only [layerStart] at h
    split at h <;> simp at h
  · cases h

theorem layerVar_inv (hM : M.Valid rows nEq) (h : LayersInv rows nEq M s) (heq : eq ∈ s.queue) {v : Nat}
    (hv : v ∈ rows.row eq) :
    LayersInv rows nEq M (layerVar M.matchVar eq s v) ∧ LayersGrow M s (layerVar M.matchVar eq s v) ∧
      Seen M (layerVar M.matchVar eq s v) v := by
  unfold layerVar
  cases howner : M.matchVar v with
  | none =>
    refine ⟨⟨h.zero, h.queued, h.nodup, h.lt, h.parent, fun _ => ⟨eq, heq, v, hv, howner⟩⟩,
      ⟨List.prefix_refl _, fun _ _ he => he, fun w hw => ⟨fun _ => rfl, hw.2⟩⟩, fun _ => rfl, fun next hn => ?_⟩
    rw [howner] at hn
    cases hn
  | some next =>
    simp only
    by_cases hnew : s.layer next = none
    swap
    · rw [if_neg hnew]
      refine ⟨h, .refl s, fun hn => ?_, fun n hn => ?_⟩
      · rw [howner] at hn
        cases hn
      · rw [howner] at hn
        exact Option.some.inj hn ▸ hnew
    rw [if_pos hnew]
    obtain ⟨k, hk⟩ := Option.ne_none_iff_exists'.1 ((h.queued eq).2 heq)
    have hne : next ≠ eq := fun hne => by
      rw [hne, hk] at hnew
      cases hnew
    have hmatched := hM.eq_of_var next v howner
    have hlayer : ∀ e, Function.update s.layer next ((s.layer eq).map (· + 1)) e =
        if e = next then some (k + 1) else s.layer e := fun e => by
      rw [hk]
      by_cases he : e = next <;> simp [he]
    have hkeep : ∀ e j, s.layer e = some j →
        Function.update s.layer next ((s.layer eq).map (· + 1)) e = some j := fun e j he => by
      rw [hlayer, if_neg, he]
      rintro rfl
      rw [hnew] at he
      cases he
    refine ⟨⟨fun e => ?_, fun e => ?_, ?_, fun e he => ?_, fun e j hj => ?_, fun hr => ?_⟩,
      ⟨List.prefix_append _ _, hkeep, fun w hw => ⟨hw.1, fun n hn => ?_⟩⟩, fun hn => ?_, fun n hn => ?_⟩
    · simp only [hlayer]
      by_cases he : e = next
      · subst he
        simp [hmatched]
      · rw [if_neg he, h.zero]
    · simp only [hlayer, List.mem_append, List.mem_singleton]
      by_cases he : e = next
      · simp [he]
      · rw [if_neg he, h.queued]
        simp [he]
    · refine List.nodup_append.2 ⟨h.nodup, List.nodup_singleton _, fun a ha b hb hab => ?_⟩
      rw [List.mem_singleton.1 hb] at hab
      exact (h.queued a).2 ha (hab ▸ hnew)
    · rcases List.mem_append.1 he with he | he
      · exact h.lt e he
      · exact List.mem_singleton.1 he ▸ (hM.edge next v hmatched).2
    · simp only [hlayer] at hj
      by_cases he : e = next
      · rw [if_pos he, Option.some.injEq] at hj
        obtain rfl : k = j := by omega
        exact ⟨eq, hkeep eq k hk, v, hv, he ▸ howner⟩
      · rw [if_neg he] at hj
        obtain ⟨e', he', hw⟩ := h.parent e j hj
        exact ⟨e', hkeep e' j he', hw⟩
    · obtain ⟨e, he, hw⟩ := h.reached hr
      exact ⟨e, List.mem_append_left _ he, hw⟩
    · obtain ⟨j, hj⟩ := Option.ne_none_iff_exists'.1 (hw.2 n hn)
      simp only [hkeep n j hj]
      simp
    · rw [howner] at hn
      cases hn
    · rw [howner] at hn
      simp only [hlayer, if_pos (Option.some.inj hn).symm]
      simp

theorem layerRow_inv (hM : M.Valid rows nEq) (h : LayersInv rows nEq M s) (heq : eq ∈ s.queue) :
    LayersInv rows nEq M ((rows.row eq).foldl (layerVar M.matchVar eq) s) ∧
      LayersGrow M s ((rows.row eq).foldl (layerVar M.matchVar eq) s) ∧
      ∀ v ∈ rows.row eq, Seen M ((rows.row eq).foldl (layerVar M.matchVar eq) s) v :=
  foldl_inv (l := rows.row eq) (f := layerVar M.matchVar eq)
    (fun pre s' => LayersInv rows nEq M s' ∧ LayersGrow M s s' ∧ ∀ v ∈ pre, Seen M s' v)
    (fun pre v post s' hl hs => by
      obtain ⟨hinv, hgrow, hseen⟩ := hs
      obtain ⟨hinv', hgrow', hv⟩ := layerVar_inv hM hinv (hgrow.queue.subset heq) (hl ▸ by simp : v ∈ rows.row eq)
      refine ⟨hinv', hgrow.trans hgrow', fun w hw => ?_⟩
      rcases List.mem_append.1 hw with hw | hw
      · exact hgrow'.seen w (hseen w hw)
      · exact List.mem_singleton.1 hw ▸ hv) ⟨h, .refl s, by simp⟩

/-- The layers a finished layering leaves. -/
structure Layers (rows : IncidenceRows) (nEq : Nat) (M : Matching) (s : Layering) : Prop extends
    LayersInv rows nEq M s where
  seen : ∀ e, s.layer e ≠ none → ∀ v ∈ rows.row e, Seen M s v

theorem layerEquations_spec (hM : M.Valid rows nEq) :
    ∃ s, layerEquations nEq rows M = some s ∧ Layers rows nEq M s := by
  refine loop_spec (layerTurn rows M.matchVar)
    (fun s => LayersInv rows nEq M s.1 ∧ s.2 ≤ s.1.queue.length ∧
      ∀ e ∈ s.1.queue.take s.2, ∀ v ∈ rows.row e, Seen M s.1 v)
    (fun s => nEq - s.2) (Layers rows nEq M) (fun s hs => ?_) (nEq + 1) _
    ⟨layerStart_inv rows nEq M, Nat.zero_le _, by simp⟩ (Nat.lt_succ_self _)
  obtain ⟨s, head⟩ := s
  obtain ⟨hinv, hle, hdone⟩ := hs
  simp only at hinv hle hdone
  cases hq : s.queue[head]? with
  | none =>
    refine .inr ⟨s, by simp only [layerTurn, hq], hinv, fun e he => ?_⟩
    have htake : s.queue.take head = s.queue := List.take_of_length_le (List.getElem?_eq_none_iff.1 hq)
    exact hdone e (htake.symm ▸ (hinv.queued e).1 he)
  | some eq =>
    have heq := List.mem_of_getElem? hq
    obtain ⟨hinv', hgrow, hseen⟩ := layerRow_inv hM hinv heq
    obtain ⟨hlt, -⟩ := List.getElem?_eq_some_iff.1 hq
    have hle' := hgrow.queue.length_le
    refine .inl ⟨_, by simp only [layerTurn, hq]; rfl, ⟨hinv', by simp only; omega, fun e he v hv => ?_⟩, ?_⟩
    · have htake : ((rows.row eq).foldl (layerVar M.matchVar eq) s).queue.take (head + 1) =
          s.queue.take head ++ [eq] := by
        obtain ⟨post, hpost⟩ := hgrow.queue
        rw [← hpost, List.take_append_of_le_length (by omega), List.take_add_one, hq]
        rfl
      simp only [htake] at he
      rcases List.mem_append.1 he with he | he
      · exact hgrow.seen v (hdone e he v hv)
      · exact hseen v (List.mem_singleton.1 he ▸ hv)
    · -- the queue holds distinct equations
      have hbound : s.queue.length ≤ nEq := by
        have hsub : s.queue ⊆ List.range nEq := fun e he => List.mem_range.2 (hinv.lt e he)
        have := (List.subperm_of_subset hinv.nodup hsub).length_le
        rwa [List.length_range] at this
      simp only
      omega

end

end Rumoca.Structural
