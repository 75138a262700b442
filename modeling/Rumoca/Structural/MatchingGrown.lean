import Rumoca.Structural.MatchingPhases
/-!
# The grown matching is maximum

A phase whose layering reaches a free unknown matches one more equation, so
the phases end; the last layering is a set of equations that own all their
unknowns, outside of which every equation is matched.
-/

namespace Rumoca.Structural

open Rumoca.Lib Matching

section
variable {rows : IncidenceRows} {nEq : Nat} {M : Matching}

/-! ## A phase -/

def unmatchedEqs (nEq : Nat) (M : Matching) : Finset Nat := (Finset.range nEq).filter fun e => M.matchEq e = none

/-- A phase after the equations `passed`, begun with the matching `M` and the layers `base`. -/
structure PhaseInv (rows : IncidenceRows) (nEq : Nat) (M : Matching) (base : Nat → Option Nat) (total : Nat)
    (passed : List Nat) (s : GrowthPhase) : Prop where
  valid : s.matching.Valid rows nEq
  count : s.matched + (unmatchedEqs nEq s.matching).card = total
  waiting : ∀ e < nEq, e ∉ passed → s.matching.matchEq e = none → s.layer e = some 0
  progress : (unmatchedEqs nEq s.matching).card < (unmatchedEqs nEq M).card ∨
    (s.matching = M ∧ RetiredInv rows M base s.layer [] ∧ ∀ e ∈ passed, M.matchEq e = none → s.layer e = none)

theorem growFrom_spec {base : Nat → Option Nat} {total start : Nat} {passed : List Nat} {s : GrowthPhase}
    (h : PhaseInv rows nEq M base total passed s) (hlt : start < nEq) (hnew : start ∉ passed) :
    ∃ s', growFrom nEq rows s start = some s' ∧ PhaseInv rows nEq M base total (passed ++ [start]) s' := by
  have hwait : ∀ e, e ∉ passed ++ [start] → e ∉ passed ∧ e ≠ start := fun e he => by
    simpa [List.mem_append, not_or] using he
  unfold growFrom
  cases hmatch : s.matching.matchEq start with
  | some v =>
    refine ⟨s, by simp, h.valid, h.count, fun e he hout => h.waiting e he (hwait e hout).1, h.progress.imp id ?_⟩
    rintro ⟨heq, hret, hpassed⟩
    refine ⟨heq, hret, fun e he hnone => ?_⟩
    rcases List.mem_append.1 he with he | he
    · exact hpassed e he hnone
    · rw [List.mem_singleton.1 he, ← heq, hmatch] at hnone
      cases hnone
  | none =>
    obtain ⟨⟨search, augmented⟩, hrun, hpost, hretired⟩ :=
      augmentLayered_spec h.valid hmatch hlt (h.waiting start hlt hnew hmatch)
    simp only [Option.isSome_none, Bool.false_eq_true, if_false, hrun, Option.bind_eq_bind, Option.bind_some]
    refine ⟨_, rfl, ?_⟩
    -- an equation still unmatched keeps its layer
    have hlayer : ∀ e < nEq, e ∉ passed ++ [start] → s.matching.matchEq e = none → search.layer e = some 0 := by
      intro e he hout hnone
      obtain ⟨hnotin, hne⟩ := hwait e hout
      rcases hpost.retired e with heq | ⟨-, hes | ⟨v, hv⟩⟩
      · exact heq.trans (h.waiting e he hnotin hnone)
      · exact absurd hes hne
      · rw [h.valid.eq_of_var e v hv] at hnone
        cases hnone
    cases augmented with
    | false =>
      obtain ⟨hsame, hstart⟩ := hpost.failed rfl
      simp only at hsame hstart
      refine ⟨hsame ▸ h.valid, by simpa [hsame] using h.count, fun e he hout hnone => hlayer e he hout (hsame ▸ hnone),
        h.progress.imp (fun hlt => by simpa [hsame] using hlt) ?_⟩
      rintro ⟨heq, hret, hpassed⟩
      refine ⟨hsame.trans heq, heq ▸ hretired base (heq.symm ▸ hret) rfl, fun e he hnone => ?_⟩
      rcases List.mem_append.1 he with he | he
      · rcases hpost.retired e with hl | ⟨hl, -⟩
        · exact hl.trans (hpassed e he hnone)
        · exact hl
      · exact List.mem_singleton.1 he ▸ hstart
    | true =>
      obtain ⟨hvalid, hnone⟩ := hpost.augmented rfl
      simp only at hvalid hnone
      have hmem : start ∈ unmatchedEqs nEq s.matching :=
        Finset.mem_filter.2 ⟨Finset.mem_range.2 hlt, hmatch⟩
      have herase : unmatchedEqs nEq search.matching = (unmatchedEqs nEq s.matching).erase start := by
        ext e
        simp only [unmatchedEqs, Finset.mem_filter, Finset.mem_erase, Finset.mem_range, hnone]
        tauto
      have hcard : (unmatchedEqs nEq search.matching).card + 1 = (unmatchedEqs nEq s.matching).card := by
        rw [herase, Finset.card_erase_add_one hmem]
      have hcount := h.count
      refine ⟨hvalid, by simp only [if_true]; omega, fun e he hout hn => hlayer e he hout ((hnone e).1 hn).1, .inl ?_⟩
      rcases h.progress with hprogress | ⟨heq, -⟩
      · simp only
        omega
      · rw [heq] at hcard
        simp only
        omega

theorem not_reachable_of_retired {layering : Layering} {layer : Nat → Option Nat} (hL : Layers rows nEq M layering)
    (h : RetiredInv rows M layering.layer layer []) (hall : ∀ e < nEq, M.matchEq e = none → layer e = none) :
    layering.reachable = false := by
  have hretired : ∀ k e, layering.layer e = some k → Retired layering.layer layer e := by
    intro k
    induction k with
    | zero =>
      intro e he
      obtain ⟨hlt, hnone⟩ := (hL.zero e).1 he
      exact ⟨by simp [he], hall e hlt hnone⟩
    | succ k ih =>
      intro e he
      obtain ⟨e', he', v, hv, howner⟩ := hL.parent e k he
      obtain ⟨next, hnext, hup⟩ := h.closed e' (ih e' he') v hv
      rw [howner, Option.some.injEq] at hnext
      subst hnext
      exact hup k he' he
  by_contra hreach
  obtain ⟨e, he, v, hv, hfree⟩ := hL.reached (by simpa using hreach)
  obtain ⟨k, hk⟩ := Option.ne_none_iff_exists'.1 ((hL.queued e).2 he)
  obtain ⟨next, hnext, -⟩ := h.closed e (hretired k e hk) v hv
  rw [hfree] at hnext
  cases hnext

/-! ## The phases -/

theorem Layers.isMaximum {layering : Layering} (hL : Layers rows nEq M layering) (hM : M.Valid rows nEq)
    (hreach : layering.reachable = false) :
    IsMaximum (fun e v => v ∈ rows.row e) (Finset.range nEq) M.matchEq := by
  refine maximum_of_closed (Z := {e | layering.layer e ≠ none}) (fun e he v hv => ?_)
    (fun e v h => Finset.mem_range.2 (hM.edge e v h).2) fun e he hout => ?_
  · obtain ⟨hfree, hup⟩ := hL.seen e he v hv
    cases howner : M.matchVar v with
    | none =>
      rw [hfree howner] at hreach
      cases hreach
    | some next => exact ⟨next, hup next howner, hM.eq_of_var next v howner⟩
  · refine Option.ne_none_iff_exists'.1 fun hnone => hout ?_
    simp [(hL.zero e).2 ⟨Finset.mem_range.1 he, hnone⟩]

theorem growTurn_spec {total : Nat} {s : Matching × Nat} (hM : s.1.Valid rows nEq)
    (hcount : s.2 + (unmatchedEqs nEq s.1).card = total) :
    (∃ s', growTurn nEq rows s = some (.next s') ∧
        (s'.1.Valid rows nEq ∧ s'.2 + (unmatchedEqs nEq s'.1).card = total) ∧
        (unmatchedEqs nEq s'.1).card < (unmatchedEqs nEq s.1).card) ∨
      growTurn nEq rows s = some (.done s) ∧
        IsMaximum (fun e v => v ∈ rows.row e) (Finset.range nEq) s.1.matchEq := by
  obtain ⟨layering, hrun, hL⟩ := layerEquations_spec hM
  simp only [growTurn, hrun, Option.bind_eq_bind, Option.bind_some]
  by_cases hreach : layering.reachable = true
  swap
  · rw [if_neg hreach]
    exact .inr ⟨rfl, hL.isMaximum hM (by simpa using hreach)⟩
  rw [if_pos hreach]
  obtain ⟨phase, hphase, hinv⟩ := foldlM_spec (l := List.range nEq) (f := growFrom nEq rows)
    (fun pre phase => PhaseInv rows nEq s.1 layering.layer total pre phase)
    (fun pre start post phase hl hphase => by
      have hmem : start ∈ List.range nEq := hl ▸ by simp
      have hnodup := List.nodup_range (n := nEq)
      rw [hl] at hnodup
      refine growFrom_spec hphase (List.mem_range.1 hmem) fun hin => ?_
      exact (List.nodup_append.1 hnodup).2.2 start hin start (by simp) rfl)
    (s := ⟨s.1, layering.layer, s.2⟩)
    ⟨hM, hcount, fun e he _ hnone => (hL.zero e).2 ⟨he, hnone⟩,
      .inr ⟨rfl, ⟨fun e => .inl rfl, fun e he => absurd he.2 he.1, fun f hf => by cases hf⟩, by simp⟩⟩
  refine .inl ⟨(phase.matching, phase.matched), by rw [hphase]; rfl, ⟨hinv.valid, hinv.count⟩, ?_⟩
  rcases hinv.progress with hlt | ⟨-, hret, hpassed⟩
  · exact hlt
  · -- a phase without progress would have had nothing to reach
    have hnot := not_reachable_of_retired hL hret fun e he hnone => hpassed e (List.mem_range.2 he) hnone
    rw [hnot] at hreach
    cases hreach

/-! ## The result -/

def SeedValid (rows : IncidenceRows) (seed : List (Option Nat)) : Prop :=
  IsMatching (fun e v => v ∈ rows.row e) fun e => (seed[e]?).join

/-- One turn of the pass over the seed. -/
def seedEntry (matchVar : Nat → Option Nat) (entry : Option Nat × Nat) : Nat → Option Nat :=
  match entry.1 with
  | none => matchVar
  | some var => Function.update matchVar var (some entry.2)

theorem seedMatching_matchVar {seed : List (Option Nat)} (h : SeedValid rows seed) (v e : Nat) :
    (seedMatching seed).matchVar v = some e ↔ (seedMatching seed).matchEq e = some v := by
  have hget : ∀ e v, (some v, e) ∈ seed.zipIdx ↔ (seed[e]?).join = some v := fun e v => by
    rw [List.mem_zipIdx_iff_getElem?, Option.join_eq_some_iff]
  have hfold := foldl_inv (l := seed.zipIdx) (s := (fun _ => none : Nat → Option Nat))
    (f := seedEntry)
    (fun pre matchVar => ∀ v e, matchVar v = some e ↔ (some v, e) ∈ pre)
    (fun pre entry post matchVar hl hinv v e => by
      obtain ⟨var, eq⟩ := entry
      rw [List.mem_append, List.mem_singleton, Prod.mk.injEq]
      cases var with
      | none => simp [seedEntry, hinv]
      | some var =>
        simp only [seedEntry, Option.some.injEq]
        by_cases hv : v = var
        · subst hv
          have huniq : (some v, e) ∈ pre → e = eq := fun hmem =>
            h.injective e eq v ((hget e v).1 (hl ▸ List.mem_append_left _ hmem)) ((hget eq v).1 (hl ▸ by simp))
          simp only [Function.update_self, Option.some.injEq, true_and]
          exact ⟨fun he => .inr he.symm, fun he => (he.elim huniq id).symm⟩
        · simp [hv, hinv])
    (by simp)
  exact (hfold v e).trans (hget e v)

theorem seedMatching_valid {seed : List (Option Nat)} (h : SeedValid rows seed) :
    (seedMatching seed).Valid rows seed.length := by
  refine ⟨fun e v hev => (seedMatching_matchVar h v e).2 hev, fun e v hev => (seedMatching_matchVar h v e).1 hev,
    fun e v hev => ⟨h.edge e v hev, ?_⟩⟩
  have hget := Option.join_eq_some_iff.1 hev
  exact (List.getElem?_eq_some_iff.1 hget).1

theorem matched_add_unmatched (M : Matching) (n : Nat) :
    (matched (Finset.range n) M.matchEq).card + (unmatchedEqs n M).card = n := by
  have hsum := Finset.card_filter_add_card_filter_not (s := Finset.range n) fun e => (M.matchEq e).isSome = true
  rw [Finset.card_range] at hsum
  simpa only [matched, unmatchedEqs, Option.not_isSome_iff_eq_none] using hsum

theorem seed_count (seed : List (Option Nat)) :
    (seed.filter (·.isSome)).length = (matched (Finset.range seed.length) (seedMatching seed).matchEq).card := by
  have hseed : seed = (List.range seed.length).map (seedMatching seed).matchEq := by
    refine List.ext_getElem (by simp) fun e h1 h2 => ?_
    simp [seedMatching, h1]
  have hfilter : seed.filter (·.isSome) =
      ((List.range seed.length).filter fun e => ((seedMatching seed).matchEq e).isSome).map
        (seedMatching seed).matchEq := by
    conv_lhs => rw [hseed]
    rw [List.filter_map]
    rfl
  rw [hfilter, List.length_map]
  simp only [matched, Finset.card, Finset.filter, Finset.range, Multiset.range, Multiset.filter_coe, Multiset.coe_card,
    Bool.decide_eq_true]

/-- A maximum matching grown from a valid seed, with its size. -/
theorem growMaximumMatching_spec {rows : IncidenceRows} {seed : List (Option Nat)} (h : SeedValid rows seed) :
    ∃ result size, growMaximumMatching rows seed = some (result, size) ∧ result.length = seed.length ∧
      IsMatching (fun e v => v ∈ rows.row e) (fun e => (result[e]?).join) ∧
      size = (matched (Finset.range seed.length) fun e => (result[e]?).join).card ∧
      IsMaximum (fun e v => v ∈ rows.row e) (Finset.range seed.length) fun e => (result[e]?).join := by
  have hcount := matched_add_unmatched (seedMatching seed) seed.length
  rw [← seed_count] at hcount
  obtain ⟨⟨M, size⟩, hrun, ⟨hM, hsize⟩, hmax⟩ := loop_spec (growTurn seed.length rows)
    (fun s => s.1.Valid rows seed.length ∧ s.2 + (unmatchedEqs seed.length s.1).card = seed.length)
    (fun s => (unmatchedEqs seed.length s.1).card)
    (fun s => (s.1.Valid rows seed.length ∧ s.2 + (unmatchedEqs seed.length s.1).card = seed.length) ∧
      IsMaximum (fun e v => v ∈ rows.row e) (Finset.range seed.length) s.1.matchEq)
    (fun s hs => (growTurn_spec hs.1 hs.2).imp id fun hdone => ⟨s, hdone.1, hs, hdone.2⟩)
    (seed.length + 1) (seedMatching seed, (seed.filter (·.isSome)).length) ⟨seedMatching_valid h, hcount⟩
    (by simp only; omega)
  have hsum := matched_add_unmatched M seed.length
  refine ⟨(List.range seed.length).map M.matchEq, size, ?_, by simp, ?_, ?_, ?_⟩
  · simp only [growMaximumMatching, hrun, Option.bind_eq_bind, Option.bind_some]
    rfl
  · simp only [hM.getElem?_matchEq]
    exact hM.isMatching
  · simp only [hM.getElem?_matchEq]
    exact Nat.add_right_cancel (hsize.trans hsum.symm)
  · simp only [hM.getElem?_matchEq]
    exact hmax

end

/-- Three equations over two unknowns, the first of which the seed gives away. -/
theorem growMaximumMatching_crowded :
    let rows : IncidenceRows := ⟨[[0, 1], [0], [0, 1]], by decide⟩
    ∃ result size, growMaximumMatching rows [some 0, none, none] = some (result, size) ∧ result.length = 3 ∧
      IsMatching (fun e v => v ∈ rows.row e) (fun e => (result[e]?).join) ∧
      size = (matched (Finset.range 3) fun e => (result[e]?).join).card ∧
      IsMaximum (fun e v => v ∈ rows.row e) (Finset.range 3) fun e => (result[e]?).join := by
  intro rows
  have hseed : ∀ e v, (([some 0, none, none] : List (Option Nat))[e]?).join = some v → e = 0 ∧ v = 0 := by
    rintro (_ | _ | _ | e) v hv <;> simp_all
  refine growMaximumMatching_spec ⟨fun e v hv => ?_, fun e e' v hv hv' => ?_⟩
  · obtain ⟨rfl, rfl⟩ := hseed e v hv
    decide
  · rw [(hseed e v hv).1, (hseed e' v hv').1]

end Rumoca.Structural
