import Rumoca.Structural.Matching
import Rumoca.Lib.Bipartite
/-!
# Augmenting searches

A search keeps an `AltPath` on its stack. `augment_spec`: a search that
commits its path matches its start and unmatches nothing, and a failed one
leaves a set of equations that own all their unknowns. Later searches do not
touch such a set, since a path that enters it never leaves it.
-/

namespace Rumoca.Structural

open Rumoca.Lib Matching

/-- The two halves are inverse, and use only edges of the first `nEq` rows. -/
structure Matching.Valid (rows : IncidenceRows) (nEq : Nat) (M : Matching) : Prop where
  var_of_eq : ∀ e v, M.matchEq e = some v → M.matchVar v = some e
  eq_of_var : ∀ e v, M.matchVar v = some e → M.matchEq e = some v
  edge : ∀ e v, M.matchEq e = some v → v ∈ rows.row e ∧ e < nEq

/-- Every equation matched by `M` is matched by `M'`. -/
def Matching.Grows (M M' : Matching) : Prop := ∀ e v, M.matchEq e = some v → ∃ w, M'.matchEq e = some w

theorem Matching.Grows.refl (M : Matching) : M.Grows M := fun _ v h => ⟨v, h⟩

theorem Matching.Grows.trans {M M' M'' : Matching} (h : M.Grows M') (h' : M'.Grows M'') : M.Grows M'' := by
  intro e v hv
  obtain ⟨w, hw⟩ := h e v hv
  exact h' e w hw

theorem Matching.valid_empty (rows : IncidenceRows) (nEq : Nat) : Matching.empty.Valid rows nEq :=
  ⟨fun _ _ h => (by cases h), fun _ _ h => (by cases h), fun _ _ h => (by cases h)⟩

section
variable {rows : IncidenceRows} {nEq nVar : Nat} {M : Matching}

theorem Matching.Valid.isMatching (h : M.Valid rows nEq) : IsMatching (fun e v => v ∈ rows.row e) M.matchEq := by
  refine ⟨fun e v hv => (h.edge e v hv).1, fun e e' v hv hv' => ?_⟩
  have h1 := h.var_of_eq e v hv
  rw [h.var_of_eq e' v hv'] at h1
  exact (Option.some.inj h1).symm

theorem Matching.Valid.getElem?_matchEq (h : M.Valid rows nEq) (e : Nat) :
    (((List.range nEq).map M.matchEq)[e]?).join = M.matchEq e := by
  by_cases he : e < nEq
  · simp [he]
  · have hnone : M.matchEq e = none := Option.eq_none_iff_forall_ne_some.2 fun v hv => he (h.edge e v hv).2
    simp [he, hnone]

theorem Matching.pair_matchEq {e v a b : Nat} :
    (M.pair e v).matchEq a = some b ↔ (a = e ∧ b = v) ∨ (a ≠ e ∧ M.matchEq a = some b) := by
  by_cases ha : a = e <;> simp [Matching.pair, ha, eq_comm]

theorem Matching.pair_matchEq_of_ne {e v a : Nat} (h : a ≠ e) : (M.pair e v).matchEq a = M.matchEq a := by
  simp [Matching.pair, h]

theorem Matching.pair_matchVar {e v a b : Nat} :
    (M.pair e v).matchVar b = some a ↔ (a = e ∧ b = v) ∨ (b ≠ v ∧ M.matchVar b = some a) := by
  by_cases hb : b = v <;> simp [Matching.pair, hb, eq_comm]

theorem Matching.grows_pair (M : Matching) (e v : Nat) : M.Grows (M.pair e v) := by
  intro a b hab
  by_cases ha : a = e
  · exact ⟨v, by simp [Matching.pair, ha]⟩
  · exact ⟨b, by simpa [Matching.pair, ha] using hab⟩

/-! ## Visit order of a row -/

namespace RowOrder

theorem position_lt {context : MatchContext} {eq position : Nat}
    (h : (new context eq).preferredPosition = some position) : position < (context.eqVars.row eq).length := by
  simp only [new, Option.bind_eq_some_iff] at h
  obtain ⟨preferred, -, h⟩ := h
  split at h
  · obtain rfl := Option.some.inj h
    exact List.idxOf_lt_length_of_mem (by assumption)
  · cases h

theorem mem_of_get {context : MatchContext} {eq cursor var : Nat} (h : (new context eq).get cursor = some var) :
    var ∈ context.eqVars.row eq := by
  unfold get at h
  split at h
  · exact List.mem_of_getElem? h
  · split at h
    · exact List.mem_of_getElem? h
    · split at h <;> exact List.mem_of_getElem? h

theorem exists_get {context : MatchContext} {eq var : Nat} (h : var ∈ context.eqVars.row eq) :
    ∃ cursor < (context.eqVars.row eq).length, (new context eq).get cursor = some var := by
  obtain ⟨i, hi⟩ := List.mem_iff_getElem?.1 h
  have hlt := (List.getElem?_eq_some_iff.1 hi).1
  unfold get
  cases hp : (new context eq).preferredPosition with
  | none => exact ⟨i, hlt, hi⟩
  | some position =>
    have hpl := position_lt hp
    simp only [new]
    rcases Nat.lt_trichotomy i position with hip | rfl | hip
    · refine ⟨i + 1, by omega, ?_⟩
      rw [if_neg (by omega), if_pos (by omega)]
      simpa using hi
    · exact ⟨0, by omega, by simpa using hi⟩
    · refine ⟨i, hlt, ?_⟩
      rw [if_neg (by omega), if_neg (by omega), Nat.sub_add_cancel (by omega)]
      exact hi

theorem get_isSome {context : MatchContext} {eq cursor : Nat} (h : cursor < (context.eqVars.row eq).length) :
    ∃ var, (new context eq).get cursor = some var := by
  unfold get
  cases hp : (new context eq).preferredPosition with
  | none => exact ⟨_, List.getElem?_eq_getElem h⟩
  | some position =>
    have hpl := position_lt hp
    simp only [new]
    split
    · exact ⟨_, List.getElem?_eq_getElem hpl⟩
    · split
      · exact ⟨_, List.getElem?_eq_getElem (by omega)⟩
      · exact ⟨_, List.getElem?_eq_getElem (by omega)⟩

end RowOrder

/-! ## Alternating paths -/

/-- `eq` is on top of the frames `below`: each frame chose an unknown owned by
the equation above it, and the lowest equation is `start`. -/
inductive AltPath (rows : IncidenceRows) (matchVar : Nat → Option Nat) (start : Nat) :
    (eq : Nat) → (below : List AugmentFrame) → Prop where
  | base : AltPath rows matchVar start start []
  | step {eq var : Nat} {frame : AugmentFrame} {below : List AugmentFrame} (hvar : frame.chosen = some var)
      (howner : matchVar var = some eq) (hrow : var ∈ rows.row frame.eq)
      (hbelow : AltPath rows matchVar start frame.eq below) : AltPath rows matchVar start eq (frame :: below)

def chosenVars (stack : List AugmentFrame) : List Nat := stack.filterMap (·.chosen)

theorem AltPath.congr {matchVar matchVar' : Nat → Option Nat} {start eq : Nat} {below : List AugmentFrame}
    (h : AltPath rows matchVar start eq below)
    (heq : ∀ v ∈ chosenVars below, ∀ e, matchVar v = some e → matchVar' v = some e) :
    AltPath rows matchVar' start eq below := by
  induction h with
  | base => exact .base
  | @step eq var frame below hvar howner hrow _ ih =>
    have hmem : ∀ v, v ∈ chosenVars (frame :: below) ↔ v = var ∨ v ∈ chosenVars below := by
      simp [chosenVars, hvar]
    exact .step hvar (heq var ((hmem var).2 (.inl rfl)) eq howner) hrow
      (ih fun v hv => heq v ((hmem v).2 (.inr hv)))

/-- The matching while a path is committed: `var`, the next unknown to assign,
is no equation's match, but may still name the equation that lost it. -/
structure Matching.Pending (rows : IncidenceRows) (nEq : Nat) (M : Matching) (var : Nat) : Prop where
  var_of_eq : ∀ e v, M.matchEq e = some v → M.matchVar v = some e
  eq_of_var : ∀ e v, v ≠ var → M.matchVar v = some e → M.matchEq e = some v
  edge : ∀ e v, M.matchEq e = some v → v ∈ rows.row e ∧ e < nEq
  free : ∀ e, M.matchEq e ≠ some var

theorem Matching.Valid.pending (h : M.Valid rows nEq) {var : Nat} (hfree : M.matchVar var = none) :
    M.Pending rows nEq var :=
  ⟨h.var_of_eq, fun e v _ => h.eq_of_var e v, h.edge, fun e he => by simp [h.var_of_eq e var he] at hfree⟩

theorem Matching.Pending.var_of_eq_pair {var : Nat} (h : M.Pending rows nEq var) (eq : Nat) (e v : Nat)
    (hev : (M.pair eq var).matchEq e = some v) : (M.pair eq var).matchVar v = some e := by
  rcases pair_matchEq.1 hev with ⟨rfl, rfl⟩ | ⟨-, hev⟩
  · exact pair_matchVar.2 (.inl ⟨rfl, rfl⟩)
  · exact pair_matchVar.2 (.inr ⟨fun hv => h.free e (hv ▸ hev), h.var_of_eq e v hev⟩)

theorem Matching.Pending.edge_pair {var eq : Nat} (h : M.Pending rows nEq var) (hrow : var ∈ rows.row eq)
    (hlt : eq < nEq) (e v : Nat) (hev : (M.pair eq var).matchEq e = some v) : v ∈ rows.row e ∧ e < nEq := by
  rcases pair_matchEq.1 hev with ⟨rfl, rfl⟩ | ⟨-, hev⟩
  · exact ⟨hrow, hlt⟩
  · exact h.edge e v hev

theorem Matching.Pending.pair_last {var eq : Nat} (h : M.Pending rows nEq var) (hrow : var ∈ rows.row eq)
    (hlt : eq < nEq) (hnone : M.matchEq eq = none) : (M.pair eq var).Valid rows nEq := by
  refine ⟨h.var_of_eq_pair eq, fun e v hev => ?_, h.edge_pair hrow hlt⟩
  rcases pair_matchVar.1 hev with hev | ⟨hv, hev⟩
  · exact pair_matchEq.2 (.inl hev)
  · have hev' := h.eq_of_var e v hv hev
    exact pair_matchEq.2 (.inr ⟨fun he => (by rw [he, hnone] at hev'; cases hev'), hev'⟩)

theorem Matching.Pending.pair_step {var eq w : Nat} (h : M.Pending rows nEq var) (hrow : var ∈ rows.row eq)
    (hw : M.matchEq eq = some w) (hne : w ≠ var) : (M.pair eq var).Pending rows nEq w := by
  refine ⟨h.var_of_eq_pair eq, fun e v hvw hev => ?_, h.edge_pair hrow (h.edge eq w hw).2, fun e he => ?_⟩
  · rcases pair_matchVar.1 hev with hev | ⟨hv, hev⟩
    · exact pair_matchEq.2 (.inl hev)
    · have hev' := h.eq_of_var e v hv hev
      exact pair_matchEq.2 (.inr ⟨fun he => hvw (by rw [he, hw] at hev'; exact (Option.some.inj hev').symm), hev'⟩)
  · rcases pair_matchEq.1 he with ⟨-, hwv⟩ | ⟨hee, he⟩
    · exact hne hwv
    · have := h.var_of_eq e w he
      rw [h.var_of_eq eq w hw] at this
      exact hee (Option.some.inj this).symm

theorem chosenVars_cons {frame : AugmentFrame} {var : Nat} (h : frame.chosen = some var) (below : List AugmentFrame) :
    chosenVars (frame :: below) = var :: chosenVars below := by
  simp [chosenVars, h]

/-- What committing a path does: `start` gets a match and no equation loses
its own; a match outside the path is left alone. -/
theorem commitAugment_spec {start eq : Nat} {below : List AugmentFrame} (cursor : Nat) {var : Nat}
    (hpath : AltPath rows M.matchVar start eq below) (hrow : var ∈ rows.row eq) (h : M.Pending rows nEq var)
    (hstart : M.matchEq start = none) (hlt : start < nEq) (hnd : (var :: chosenVars below).Nodup) :
    let M' := commitAugment (⟨eq, cursor, some var⟩ :: below) M
    M'.Valid rows nEq ∧ M.Grows M' ∧ (∃ v, M'.matchEq start = some v) ∧
      (∀ e ≠ start, M.matchEq e = none → M'.matchEq e = none) ∧
      ∀ e v, M.matchEq e = some v → v ∉ chosenVars below → M'.matchEq e = some v := by
  intro M'
  induction below generalizing M eq var cursor with
  | nil =>
    cases hpath
    refine ⟨h.pair_last hrow hlt hstart, M.grows_pair _ _, ⟨var, pair_matchEq.2 (.inl ⟨rfl, rfl⟩)⟩,
      fun e he hnone => (pair_matchEq_of_ne he).trans hnone, fun e v hev _ => ?_⟩
    exact pair_matchEq.2 (.inr ⟨fun he => (by rw [he, hstart] at hev; cases hev), hev⟩)
  | cons frame below ih =>
    obtain ⟨⟩ | @⟨_, w, _, _, hw, howner, hroww, hbelow⟩ := hpath
    rw [chosenVars_cons hw] at hnd ⊢
    obtain ⟨hvarw, hnd'⟩ := List.nodup_cons.1 hnd
    have hne : w ≠ var := fun h => hvarw (by simp [h])
    have hmatched : M.matchEq eq = some w := h.eq_of_var eq w hne howner
    have hframe : frame = ⟨frame.eq, frame.cursor, some w⟩ := by rw [← hw]
    have hpath' : AltPath rows (M.pair eq var).matchVar start frame.eq below :=
      hbelow.congr fun v hv e he => by
        have hvv : v ≠ var := by rintro rfl; exact hvarw (by simp [hv])
        exact pair_matchVar.2 (.inr ⟨hvv, he⟩)
    have hne' : start ≠ eq := by rintro rfl; rw [hstart] at hmatched; cases hmatched
    obtain ⟨hvalid, hgrows, hst, hothers, hkeep⟩ := ih frame.cursor hpath' hroww (h.pair_step hrow hmatched hne)
      (by simpa [Matching.pair, hne'] using hstart) hnd'
    have hM' : M' = commitAugment (⟨frame.eq, frame.cursor, some w⟩ :: below) (M.pair eq var) := by
      rw [← hframe]; rfl
    rw [hM']
    refine ⟨hvalid, (M.grows_pair eq var).trans hgrows, hst, fun e he hnone => hothers e he ?_, fun e v hev hv => ?_⟩
    · exact (pair_matchEq_of_ne fun h => by rw [h, hmatched] at hnone; cases hnone).trans hnone
    rw [List.mem_cons, not_or] at hv
    have he : e ≠ eq := by rintro rfl; rw [hmatched] at hev; exact hv.1 (Option.some.inj hev).symm
    exact hkeep e v (pair_matchEq.2 (.inr ⟨he, hev⟩)) hv.2

/-! ## The augmenting search -/

def AugmentScratch.Visited (scratch : AugmentScratch) (v : Nat) : Prop := scratch.visitedEpoch v = scratch.epoch

/-- The unknowns still unmarked, which bounds the frames still to come. -/
def unmarked (nVar : Nat) (mark : Nat → Nat) (epoch : Nat) : Nat :=
  ((Finset.range nVar).filter fun v => mark v ≠ epoch).card

theorem unmarked_le (nVar : Nat) (mark : Nat → Nat) (epoch : Nat) : unmarked nVar mark epoch ≤ nVar := by
  exact (Finset.card_filter_le _ _).trans (by simp)

theorem unmarked_mono {mark mark' : Nat → Nat} {epoch : Nat} (h : ∀ v, mark v = epoch → mark' v = epoch) :
    unmarked nVar mark' epoch ≤ unmarked nVar mark epoch := by
  refine Finset.card_le_card fun v hv => ?_
  rw [Finset.mem_filter] at hv ⊢
  exact ⟨hv.1, fun hm => hv.2 (h v hm)⟩

theorem unmarked_lt {mark mark' : Nat → Nat} {epoch var : Nat} (h : ∀ v, mark v = epoch → mark' v = epoch)
    (hlt : var < nVar) (hold : mark var ≠ epoch) (hnew : mark' var = epoch) :
    unmarked nVar mark' epoch < unmarked nVar mark epoch := by
  refine Finset.card_lt_card ⟨fun v hv => ?_, fun hsub => ?_⟩
  · rw [Finset.mem_filter] at hv ⊢
    exact ⟨hv.1, fun hm => hv.2 (h v hm)⟩
  · exact (Finset.mem_filter.1 (hsub (Finset.mem_filter.2 ⟨Finset.mem_range.2 hlt, hold⟩))).2 hnew

def stepOf (matching : Matching) (var : Nat) : AugmentStep :=
  match matching.matchVar var with
  | none => .Claim var
  | some owner => .Descend var owner

/-- The scan stops at the first unvisited variable from `cursor` on, or has seen the rest of the row visited. -/
theorem nextAugmentStep_spec (context : MatchContext) (eq : Nat) (scratch : AugmentScratch) (remaining cursor : Nat)
    (hlen : remaining + cursor = (context.eqVars.row eq).length) :
    (∃ k v, cursor ≤ k ∧ k < (context.eqVars.row eq).length ∧
        (RowOrder.new context eq).get k = some v ∧ ¬ scratch.Visited v ∧
        (∀ j, cursor ≤ j → j < k → ∀ w, (RowOrder.new context eq).get j = some w → scratch.Visited w) ∧
        nextAugmentStep (RowOrder.new context eq) M scratch remaining cursor =
          (stepOf M v, k + 1, scratch.visit v)) ∨
      ∃ c, nextAugmentStep (RowOrder.new context eq) M scratch remaining cursor = (.Exhausted, c, scratch) ∧
        ∀ j, cursor ≤ j → j < (context.eqVars.row eq).length →
          ∀ w, (RowOrder.new context eq).get j = some w → scratch.Visited w := by
  induction remaining generalizing cursor with
  | zero => exact .inr ⟨cursor, rfl, fun j hj hj' => by omega⟩
  | succ remaining ih =>
    obtain ⟨v, hv⟩ : ∃ v, (RowOrder.new context eq).get cursor = some v := RowOrder.get_isSome (by omega)
    by_cases hvis : scratch.Visited v
    · have hstep : nextAugmentStep (RowOrder.new context eq) M scratch (remaining + 1) cursor =
          nextAugmentStep (RowOrder.new context eq) M scratch remaining (cursor + 1) := by
        simp only [nextAugmentStep, hv]
        exact if_pos hvis
      have hcursor : ∀ j, cursor ≤ j → (cursor + 1 ≤ j → ∀ w, (RowOrder.new context eq).get j = some w →
          scratch.Visited w) → ∀ w, (RowOrder.new context eq).get j = some w → scratch.Visited w := by
        intro j hj h w hw
        rcases Nat.eq_or_lt_of_le hj with rfl | hlt
        · rw [hv] at hw; exact Option.some.inj hw ▸ hvis
        · exact h hlt w hw
      rw [hstep]
      rcases ih (cursor + 1) (by omega) with ⟨k, u, hk, hkl, hu, hnot, hall, heq⟩ | ⟨c, heq, hall⟩
      · exact .inl ⟨k, u, by omega, hkl, hu, hnot, fun j hj hjk => hcursor j hj fun hj' => hall j hj' hjk, heq⟩
      · exact .inr ⟨c, heq, fun j hj hjl => hcursor j hj fun hj' => hall j hj' hjl⟩
    · refine .inl ⟨cursor, v, le_refl _, by omega, hv, hvis, fun j hj hjk => by omega, ?_⟩
      have hvis' : scratch.visitedEpoch v ≠ scratch.epoch := hvis
      simp only [nextAugmentStep, hv, if_neg hvis', stepOf]
      cases M.matchVar v <;> rfl

/-- The state of the search: the path on the stack, and what has been visited.
A visited unknown has an owner, and an owner that is off the stack has seen
its whole row visited. -/
structure SearchInv (context : MatchContext) (M : Matching) (start : Nat) (stack : List AugmentFrame)
    (scratch : AugmentScratch) : Prop where
  path : ∀ top below, stack = top :: below → AltPath context.eqVars M.matchVar start top.eq below
  nodup : (chosenVars stack.tail).Nodup
  visited : ∀ v ∈ chosenVars stack.tail, scratch.Visited v
  scanned : ∀ f ∈ stack, f.cursor ≤ (context.eqVars.row f.eq).length ∧
    ∀ c < f.cursor, ∀ v, (RowOrder.new context f.eq).get c = some v → scratch.Visited v
  owned : ∀ v, scratch.Visited v → ∃ e, M.matchVar v = some e
  closed : ∀ e, (e = start ∨ ∃ v, scratch.Visited v ∧ M.matchVar v = some e) →
    (∃ f ∈ stack, f.eq = e) ∨ ∀ v ∈ context.eqVars.row e, scratch.Visited v

theorem AugmentScratch.visited_visit {scratch : AugmentScratch} {v w : Nat} :
    (scratch.visit v).Visited w ↔ w = v ∨ scratch.Visited w := by
  by_cases hw : w = v <;> simp [Visited, visit, hw]

theorem searchInv_start {context : MatchContext} {start : Nat} {scratch : AugmentScratch}
    (h : ∀ v, ¬ scratch.Visited v) : SearchInv context M start [AugmentFrame.new start] scratch where
  path top below heq := by
    obtain ⟨rfl, rfl⟩ := List.cons.inj heq
    exact .base
  nodup := by simp [chosenVars]
  visited := by simp [chosenVars]
  scanned f hf := by
    obtain rfl := List.mem_singleton.1 hf
    exact ⟨Nat.zero_le _, fun c hc => absurd hc (Nat.not_lt_zero c)⟩
  owned v hv := absurd hv (h v)
  closed e he := by
    rcases he with rfl | ⟨v, hv, -⟩
    · exact .inl ⟨_, List.mem_singleton.2 rfl, rfl⟩
    · exact absurd hv (h v)

section
variable {context : MatchContext} {start : Nat} {top : AugmentFrame} {below : List AugmentFrame}
  {scratch : AugmentScratch}

theorem SearchInv.pop (h : SearchInv context M start (top :: below) scratch)
    (hall : ∀ v ∈ context.eqVars.row top.eq, scratch.Visited v) : SearchInv context M start below scratch := by
  have hpath := h.path top below rfl
  refine ⟨fun f rest heq => ?_, ?_, fun v hv => ?_, fun f hf => h.scanned f (List.mem_cons_of_mem _ hf), h.owned,
    fun e he => ?_⟩
  · subst heq
    obtain ⟨⟩ | ⟨-, -, -, hbelow⟩ := hpath
    exact hbelow
  · exact h.nodup.sublist ((List.tail_sublist below).filterMap _)
  · exact h.visited v (((List.tail_sublist below).filterMap _).subset hv)
  · rcases h.closed e he with ⟨f, hf, rfl⟩ | hrow
    · rcases List.mem_cons.1 hf with rfl | hf
      · exact .inr hall
      · exact .inl ⟨f, hf, rfl⟩
    · exact .inr hrow

/-- The top equation asks for `v`, whose owner comes on top. -/
theorem SearchInv.descend (h : SearchInv context M start (top :: below) scratch) {k v owner : Nat}
    (hk : top.cursor ≤ k) (hv : (RowOrder.new context top.eq).get k = some v) (hnot : ¬ scratch.Visited v)
    (hall : ∀ j, top.cursor ≤ j → j < k → ∀ w, (RowOrder.new context top.eq).get j = some w → scratch.Visited w)
    (hlen : k < (context.eqVars.row top.eq).length) (howner : M.matchVar v = some owner) :
    SearchInv context M start (AugmentFrame.new owner :: ⟨top.eq, k + 1, some v⟩ :: below) (scratch.visit v) := by
  have hchosen : chosenVars (⟨top.eq, k + 1, some v⟩ :: below) = v :: chosenVars below := chosenVars_cons rfl below
  refine ⟨fun f rest heq => ?_, ?_, fun w hw => ?_, fun f hf => ?_, fun w hw => ?_, fun e he => ?_⟩
  · obtain ⟨rfl, rfl⟩ := List.cons.inj heq
    exact .step rfl howner (RowOrder.mem_of_get hv) (h.path top below rfl)
  · rw [List.tail_cons, hchosen, List.nodup_cons]
    exact ⟨fun hmem => hnot (h.visited v hmem), h.nodup⟩
  · rw [List.tail_cons, hchosen] at hw
    exact AugmentScratch.visited_visit.2 ((List.mem_cons.1 hw).imp id (h.visited w))
  · rcases List.mem_cons.1 hf with rfl | hf
    · exact ⟨Nat.zero_le _, fun c hc => absurd hc (Nat.not_lt_zero c)⟩
    rcases List.mem_cons.1 hf with rfl | hf
    · refine ⟨hlen, fun c hc w hw => AugmentScratch.visited_visit.2 ?_⟩
      rcases Nat.lt_or_ge c top.cursor with hlt | hge
      · exact .inr ((h.scanned top (List.mem_cons_self ..)).2 c hlt w hw)
      · rcases Nat.eq_or_lt_of_le (Nat.le_of_lt_succ hc) with rfl | hlt
        · rw [hv] at hw; exact .inl (Option.some.inj hw).symm
        · exact .inr (hall c hge hlt w hw)
    · obtain ⟨hle, hsc⟩ := h.scanned f (List.mem_cons_of_mem _ hf)
      exact ⟨hle, fun c hc w hw => AugmentScratch.visited_visit.2 (.inr (hsc c hc w hw))⟩
  · rcases AugmentScratch.visited_visit.1 hw with rfl | hw
    · exact ⟨owner, howner⟩
    · exact h.owned w hw
  · -- the only equation newly reached is `owner`, which is on top
    by_cases heo : e = owner
    · exact .inl ⟨_, List.mem_cons_self .., heo.symm⟩
    · have hold : e = start ∨ ∃ w, scratch.Visited w ∧ M.matchVar w = some e := by
        refine he.imp id ?_
        rintro ⟨w, hw, hwe⟩
        rcases AugmentScratch.visited_visit.1 hw with rfl | hw
        · rw [howner] at hwe; exact absurd (Option.some.inj hwe).symm heo
        · exact ⟨w, hw, hwe⟩
      rcases h.closed e hold with ⟨f, hf, rfl⟩ | hrow
      · rcases List.mem_cons.1 hf with rfl | hf
        · exact .inl ⟨_, List.mem_cons_of_mem _ (List.mem_cons_self ..), rfl⟩
        · exact .inl ⟨f, List.mem_cons_of_mem _ (List.mem_cons_of_mem _ hf), rfl⟩
      · exact .inr fun w hw => AugmentScratch.visited_visit.2 (.inr (hrow w hw))

theorem AltPath.avoid {Z : Set Nat} {eq : Nat} (hM : M.Valid rows nEq)
    (hZ : NeighborsOwned (fun e v => v ∈ rows.row e) M.matchEq Z) (h : AltPath rows M.matchVar start eq below)
    (heq : eq ∉ Z) : ∀ v ∈ chosenVars below, ∀ e ∈ Z, M.matchEq e ≠ some v := by
  induction h with
  | base => simp [chosenVars]
  | @step eq var frame below hvar howner hrow _ ih =>
    have hframe : frame.eq ∉ Z := by
      intro hf
      obtain ⟨e, he, hev⟩ := hZ frame.eq hf var hrow
      rw [hM.var_of_eq e var hev] at howner
      exact heq (Option.some.inj howner ▸ he)
    intro v hv e he hev
    rw [chosenVars_cons hvar] at hv
    rcases List.mem_cons.1 hv with rfl | hv
    · rw [hM.var_of_eq e v hev] at howner
      exact heq (Option.some.inj howner ▸ he)
    · exact ih hframe v hv e he hev

end

abbrev Owned (rows : IncidenceRows) (M : Matching) (Z : Set Nat) : Prop :=
  NeighborsOwned (fun e v => v ∈ rows.row e) M.matchEq Z

/-- What a search from `start` leaves: `start` matched and every owning set
intact, or the matching unchanged and `start` in an owning set. -/
def SearchPost (rows : IncidenceRows) (nEq : Nat) (M : Matching) (start : Nat) (r : Matching × AugmentScratch) : Prop :=
  r.1.Valid rows nEq ∧ M.Grows r.1 ∧ (∀ v, r.2.visitedEpoch v ≤ r.2.epoch) ∧
    (((∃ v, r.1.matchEq start = some v) ∧ (∀ e ≠ start, M.matchEq e = none → r.1.matchEq e = none) ∧
        ∀ Z, Owned rows M Z → Owned rows r.1 Z) ∨
      (r.1 = M ∧ ∃ Z : Set Nat, start ∈ Z ∧ Owned rows M Z))

theorem AugmentScratch.visit_le {scratch : AugmentScratch} (h : ∀ v, scratch.visitedEpoch v ≤ scratch.epoch)
    (w v : Nat) : (scratch.visit w).visitedEpoch v ≤ (scratch.visit w).epoch := by
  by_cases hv : v = w
  · simp [visit, hv]
  · simpa [visit, hv] using h v

section
variable {context : MatchContext} {start : Nat} (hM : M.Valid context.eqVars nEq)
  (hcol : ∀ e, ∀ v ∈ context.eqVars.row e, v < nVar)
include hM hcol

theorem augmentTurn_spec (hstart : M.matchEq start = none) (hlt : start < nEq)
    (s : List AugmentFrame × AugmentScratch)
    (h : SearchInv context M start s.1 s.2 ∧ ∀ v, s.2.visitedEpoch v ≤ s.2.epoch) :
    (∃ s', augmentTurn context M s = some (.next s') ∧
        (SearchInv context M start s'.1 s'.2 ∧ ∀ v, s'.2.visitedEpoch v ≤ s'.2.epoch) ∧
        2 * unmarked nVar s'.2.visitedEpoch s'.2.epoch + s'.1.length <
          2 * unmarked nVar s.2.visitedEpoch s.2.epoch + s.1.length) ∨
      ∃ r, augmentTurn context M s = some (.done r) ∧ SearchPost context.eqVars nEq M start r := by
  obtain ⟨stack, scratch⟩ := s
  obtain ⟨hinv, hle⟩ := h
  cases stack with
  | nil =>
    refine .inr ⟨_, rfl, hM, .refl M, hle, .inr ⟨rfl, {e | e = start ∨ ∃ v, scratch.Visited v ∧
      M.matchVar v = some e}, .inl rfl, fun e he b hb => ?_⟩⟩
    obtain ⟨_, hf, -⟩ | hrow := hinv.closed e he
    · cases hf
    · obtain ⟨o, ho⟩ := hinv.owned b (hrow b hb)
      exact ⟨o, .inr ⟨b, hrow b hb, ho⟩, hM.eq_of_var o b ho⟩
  | cons top below =>
    obtain ⟨hcursor, hscan⟩ := hinv.scanned top (List.mem_cons_self ..)
    rcases nextAugmentStep_spec (M := M) context top.eq scratch
        ((context.eqVars.row top.eq).length - top.cursor) top.cursor (by omega) with
      ⟨k, v, hk, hlen, hv, hnot, hall, heq⟩ | ⟨c, heq, hall⟩
    · have hrow := RowOrder.mem_of_get hv
      have hpath := hinv.path top below rfl
      cases hmv : M.matchVar v with
      | none =>
        -- the path ends in a free unknown
        have hnd : (v :: chosenVars below).Nodup :=
          List.nodup_cons.2 ⟨fun hm => hnot (hinv.visited v hm), hinv.nodup⟩
        obtain ⟨hvalid, hgrows, hst, hothers, hkeep⟩ :=
          commitAugment_spec (k + 1) hpath hrow (hM.pending hmv) hstart hlt hnd
        have hturn : augmentTurn context M (top :: below, scratch) =
            some (.done (commitAugment (⟨top.eq, k + 1, some v⟩ :: below) M, scratch.visit v)) := by
          simp only [augmentTurn, RowOrder.new] at heq ⊢
          rw [heq]
          simp only [stepOf, hmv]
        refine .inr ⟨_, hturn, hvalid, hgrows, AugmentScratch.visit_le hle v,
          .inl ⟨hst, hothers, fun Z hZ e he b hb => ?_⟩⟩
        have htop : top.eq ∉ Z := by
          intro hin
          obtain ⟨o, -, ho⟩ := hZ top.eq hin v hrow
          simp [hM.var_of_eq o v ho] at hmv
        obtain ⟨o, ho, hob⟩ := hZ e he b hb
        exact ⟨o, ho, hkeep o b hob fun hmem => hpath.avoid hM hZ htop b hmem o ho hob⟩
      | some owner =>
        have hturn : augmentTurn context M (top :: below, scratch) =
            some (.next (AugmentFrame.new owner :: ⟨top.eq, k + 1, some v⟩ :: below, scratch.visit v)) := by
          simp only [augmentTurn, RowOrder.new] at heq ⊢
          rw [heq]
          simp only [stepOf, hmv]
        refine .inl ⟨_, hturn, ⟨hinv.descend hk hv hnot hall hlen hmv, AugmentScratch.visit_le hle v⟩, ?_⟩
        have hlt' : unmarked nVar (scratch.visit v).visitedEpoch (scratch.visit v).epoch <
            unmarked nVar scratch.visitedEpoch scratch.epoch :=
          unmarked_lt (fun w hw => AugmentScratch.visited_visit.2 (.inr hw)) (hcol top.eq v hrow) hnot
            (AugmentScratch.visited_visit.2 (.inl rfl))
        simp only [List.length_cons]
        omega
    · have hturn : augmentTurn context M (top :: below, scratch) = some (.next (below, scratch)) := by
        simp only [augmentTurn, RowOrder.new] at heq ⊢
        rw [heq]
      refine .inl ⟨_, hturn, ⟨hinv.pop fun v hv => ?_, hle⟩, ?_⟩
      · obtain ⟨j, hjl, hj⟩ := RowOrder.exists_get hv
        rcases Nat.lt_or_ge j top.cursor with hjc | hjc
        · exact hscan j hjc v hj
        · exact hall j hjc hjl v hj
      · simp only [List.length_cons]
        omega

theorem augment_spec (hstart : M.matchEq start = none) (hlt : start < nEq) {scratch : AugmentScratch}
    (hfresh : ∀ v, scratch.visitedEpoch v < scratch.epoch) :
    ∃ r, augment nVar context (M, scratch) start = some r ∧ SearchPost context.eqVars nEq M start r :=
  loop_spec (augmentTurn context M)
    (fun s => SearchInv context M start s.1 s.2 ∧ ∀ v, s.2.visitedEpoch v ≤ s.2.epoch)
    (fun s => 2 * unmarked nVar s.2.visitedEpoch s.2.epoch + s.1.length) (SearchPost context.eqVars nEq M start)
    (fun s h => augmentTurn_spec hM hcol hstart hlt s h) (2 * nVar + 2) ([AugmentFrame.new start], scratch)
    ⟨searchInv_start fun v => Nat.ne_of_lt (hfresh v), fun v => (hfresh v).le⟩ (by
      have := unmarked_le nVar scratch.visitedEpoch scratch.epoch
      simp only [List.length_singleton]
      omega)

end

end

end Rumoca.Structural
