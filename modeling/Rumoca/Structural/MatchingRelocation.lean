import Rumoca.Structural.MatchingAugment
/-!
# Relocations

The second pass moves equations along alternating paths to free a preferred
unknown. While a path is committed the root equation may hold an unknown
that another equation already took; `AlmostValid` allows exactly this, and
the root's own assignment ends it. No equation loses its match.
-/

namespace Rumoca.Structural

open Rumoca.Lib Matching

/-- Valid, but the match of `root` may have been taken over by another equation. -/
structure Matching.AlmostValid (rows : IncidenceRows) (nEq : Nat) (M : Matching) (root : Nat) : Prop where
  eq_of_var : ∀ e v, M.matchVar v = some e → M.matchEq e = some v
  var_of_eq : ∀ e v, e ≠ root → M.matchEq e = some v → M.matchVar v = some e
  edge : ∀ e v, M.matchEq e = some v → v ∈ rows.row e ∧ e < nEq

section
variable {rows : IncidenceRows} {nEq nVar root : Nat} {M : Matching}

theorem Matching.Valid.almost (h : M.Valid rows nEq) (root : Nat) : M.AlmostValid rows nEq root :=
  ⟨h.eq_of_var, fun e v _ => h.var_of_eq e v, h.edge⟩

/-! ## One assignment -/

theorem assignMatch_matchEq {e v a b : Nat} :
    (assignMatch e v M).matchEq a = some b ↔ (a = e ∧ b = v) ∨ (a ≠ e ∧ M.matchEq a = some b) := by
  by_cases ha : a = e <;> simp [assignMatch, ha, eq_comm]

/-- An assignment clears the unknown that `e` held. -/
theorem assignMatch_matchVar (h : ∀ e v, M.matchVar v = some e → M.matchEq e = some v) {e v a b : Nat} :
    (assignMatch e v M).matchVar b = some a ↔
      (a = e ∧ b = v) ∨ (b ≠ v ∧ a ≠ e ∧ M.matchVar b = some a) := by
  by_cases hb : b = v
  · subst hb
    simp [assignMatch, eq_comm]
  simp only [assignMatch, Function.update_of_ne hb, hb, and_false, false_or, ne_eq, not_false_eq_true, true_and]
  cases hprev : M.matchEq e with
  | none =>
    refine ⟨fun hba => ⟨fun hae => ?_, hba⟩, fun hba => hba.2⟩
    rw [hae] at hba
    rw [h e b hba] at hprev
    cases hprev
  | some previous =>
    simp only
    constructor
    · intro hba
      have hba' : M.matchVar b = some a ∧ (b = previous → M.matchVar previous ≠ some e) := by
        split at hba
        · by_cases hbp : b = previous
          · simp [hbp] at hba
          · exact ⟨by simpa [hbp] using hba, fun hbp' => absurd hbp' hbp⟩
        · exact ⟨hba, fun _ => by assumption⟩
      refine ⟨fun hae => ?_, hba'.1⟩
      have hbe := hae ▸ hba'.1
      have hbp : b = previous := by
        have := h e b hbe
        rw [hprev] at this
        exact (Option.some.inj this).symm
      exact hba'.2 hbp (hbp ▸ hbe)
    · rintro ⟨hae, hba⟩
      split
      · rename_i hpe
        have hbp : b ≠ previous := by
          rintro rfl
          rw [hba] at hpe
          exact hae (Option.some.inj hpe)
        simpa [hbp] using hba
      · exact hba

theorem grows_assignMatch (M : Matching) (e v : Nat) : M.Grows (assignMatch e v M) := by
  intro a b hab
  by_cases ha : a = e
  · exact ⟨v, assignMatch_matchEq.2 (.inl ⟨ha, rfl⟩)⟩
  · exact ⟨b, assignMatch_matchEq.2 (.inr ⟨ha, hab⟩)⟩

theorem Matching.AlmostValid.assign (h : M.AlmostValid rows nEq root) {e v : Nat} (hrow : v ∈ rows.row e)
    (hlt : e < nEq) (hfree : ∀ a, M.matchVar v = some a → a = root) :
    (assignMatch e v M).AlmostValid rows nEq root := by
  refine ⟨fun a b hab => ?_, fun a b ha hab => ?_, fun a b hab => ?_⟩
  · rcases (assignMatch_matchVar h.eq_of_var).1 hab with hab | ⟨-, hae, hab⟩
    · exact assignMatch_matchEq.2 (.inl hab)
    · exact assignMatch_matchEq.2 (.inr ⟨hae, h.eq_of_var a b hab⟩)
  · rcases assignMatch_matchEq.1 hab with hab | ⟨hae, hab⟩
    · exact (assignMatch_matchVar h.eq_of_var).2 (.inl hab)
    · have hba := h.var_of_eq a b ha hab
      exact (assignMatch_matchVar h.eq_of_var).2 (.inr ⟨fun hbv => ha (hfree a (hbv ▸ hba)), hae, hba⟩)
  · rcases assignMatch_matchEq.1 hab with ⟨rfl, rfl⟩ | ⟨-, hab⟩
    · exact ⟨hrow, hlt⟩
    · exact h.edge a b hab

theorem Matching.AlmostValid.assign_root (h : M.AlmostValid rows nEq root) {v : Nat} (hrow : v ∈ rows.row root)
    (hlt : root < nEq) (hfree : M.matchVar v = none) : (assignMatch root v M).Valid rows nEq := by
  have ha := h.assign hrow hlt (v := v) fun a ha => by rw [hfree] at ha; cases ha
  refine ⟨fun a b hab => ?_, ha.eq_of_var, ha.edge⟩
  by_cases har : a = root
  · rcases assignMatch_matchEq.1 hab with hab | ⟨hne, -⟩
    · exact (assignMatch_matchVar h.eq_of_var).2 (.inl hab)
    · exact absurd har hne
  · exact ha.var_of_eq a b har hab

/-! ## Committing a path -/

/-- Committing a path frees `preferred`, which the lowest equation held. -/
theorem commit_spec {start eq preferred : Nat} {below : List AugmentFrame} (cursor : Nat) {var : Nat}
    (hpath : AltPath rows M.matchVar start eq below) (hrow : var ∈ rows.row eq) (h : M.AlmostValid rows nEq root)
    (hfree : ∀ a, M.matchVar var = some a → a = root) (hpref : M.matchVar preferred = some start)
    (hnd : (var :: chosenVars below).Nodup) (hout : preferred ∉ var :: chosenVars below) :
    let M' := RelocationSearch.commit (⟨eq, cursor, some var⟩ :: below) M
    M'.AlmostValid rows nEq root ∧ M.Grows M' ∧ M'.matchVar preferred = none := by
  intro M'
  rw [List.mem_cons, not_or] at hout
  have hpm := h.eq_of_var start preferred hpref
  have hlt : ∀ v, M.matchVar v = some eq → eq < nEq := fun v hv => (h.edge eq v (h.eq_of_var eq v hv)).2
  induction below generalizing M eq var cursor with
  | nil =>
    cases hpath
    refine ⟨h.assign hrow (hlt preferred hpref) hfree, grows_assignMatch M _ _, ?_⟩
    refine Option.eq_none_iff_forall_ne_some.2 fun a ha => ?_
    rcases (assignMatch_matchVar h.eq_of_var).1 ha with ⟨-, hpv⟩ | ⟨-, hae, ha⟩
    · exact hout.1 hpv
    · rw [hpref] at ha
      exact hae (Option.some.inj ha).symm
  | cons frame below ih =>
    obtain ⟨⟩ | @⟨_, w, _, _, hw, howner, hroww, hbelow⟩ := hpath
    rw [chosenVars_cons hw] at hnd hout
    obtain ⟨hvarw, hnd'⟩ := List.nodup_cons.1 hnd
    rw [List.mem_cons, not_or] at hout
    have hne : w ≠ var := fun h => hvarw (by simp [h])
    have hmatched : M.matchEq eq = some w := h.eq_of_var eq w howner
    have hframe : frame = ⟨frame.eq, frame.cursor, some w⟩ := by rw [← hw]
    have hstay : ∀ v a, v ≠ var → v ≠ w → M.matchVar v = some a → (assignMatch eq var M).matchVar v = some a := by
      intro v a hv hvw hva
      refine (assignMatch_matchVar h.eq_of_var).2 (.inr ⟨hv, fun hae => hvw ?_, hva⟩)
      have := h.eq_of_var a v hva
      rw [hae, hmatched] at this
      exact (Option.some.inj this).symm
    have hpath' : AltPath rows (assignMatch eq var M).matchVar start frame.eq below :=
      hbelow.congr fun v hv e he => hstay v e (fun h => hvarw (by simp [← h, hv]))
        (fun h => (List.nodup_cons.1 hnd').1 (h ▸ hv)) he
    have hfreew : ∀ a, (assignMatch eq var M).matchVar w = some a → a = root := by
      intro a ha
      rcases (assignMatch_matchVar h.eq_of_var).1 ha with ⟨-, hwv⟩ | ⟨-, hae, ha⟩
      · exact absurd hwv hne
      · rw [howner] at ha
        exact absurd (Option.some.inj ha).symm hae
    have hvalid := h.assign hrow (hlt w howner) hfree
    have hpref' := hstay preferred start hout.1 hout.2.1 hpref
    obtain ⟨hv', hgrows, hnone⟩ := ih frame.cursor hpath' hroww hvalid hfreew hpref' hnd' hout.2
      (hvalid.eq_of_var start preferred hpref') fun v hv => (hvalid.edge _ v (hvalid.eq_of_var _ v hv)).2
    have hM' : M' = RelocationSearch.commit (⟨frame.eq, frame.cursor, some w⟩ :: below) (assignMatch eq var M) := by
      rw [← hframe]; rfl
    rw [hM']
    exact ⟨hv', (grows_assignMatch M eq var).trans hgrows, hnone⟩

end

/-! ## The relocation search -/

def RelocationVisits.Visited (visits : RelocationVisits) (v : Nat) : Prop := visits.vars v = visits.epoch

def RelocationVisits.Extends (visits visits' : RelocationVisits) : Prop :=
  visits'.epoch = visits.epoch ∧ ∀ v, visits.Visited v → visits'.Visited v

section
variable {nEq nVar preferred start : Nat} {search : RelocationSearch} {visits : RelocationVisits}

theorem RelocationVisits.Extends.refl (visits : RelocationVisits) : visits.Extends visits := ⟨rfl, fun _ h => h⟩

theorem RelocationVisits.Extends.trans {visits' visits'' : RelocationVisits} (h : visits.Extends visits')
    (h' : visits'.Extends visits'') : visits.Extends visits'' :=
  ⟨h'.1.trans h.1, fun v hv => h'.2 v (h.2 v hv)⟩

theorem RelocationVisits.extends_visitVar (visits : RelocationVisits) (v : Nat) :
    visits.Extends (visits.visitVar v) := by
  refine ⟨rfl, fun w hw => ?_⟩
  by_cases hwv : w = v
  · simp [Visited, visitVar, hwv]
  · simpa [Visited, visitVar, hwv] using hw

theorem RelocationVisits.visited_visitVar (visits : RelocationVisits) (v : Nat) : (visits.visitVar v).Visited v := by
  simp [Visited, visitVar]

theorem RelocationVisits.Extends.unmarked_le {visits' : RelocationVisits} (h : visits.Extends visits') :
    unmarked nVar visits'.vars visits'.epoch ≤ unmarked nVar visits.vars visits.epoch := by
  rw [h.1]
  exact unmarked_mono fun v hv => h.1 ▸ h.2 v hv

theorem RelocationVisits.Extends.unmarked_lt {visits' : RelocationVisits} (h : visits.Extends visits') {v : Nat}
    (hlt : v < nVar) (hold : ¬ visits.Visited v) (hnew : visits'.Visited v) :
    unmarked nVar visits'.vars visits'.epoch < unmarked nVar visits.vars visits.epoch := by
  rw [h.1]
  exact Structural.unmarked_lt (fun v hv => h.1 ▸ h.2 v hv) hlt hold (h.1 ▸ hnew)

/-- What one scan answers: an unknown that is free or the root's, one whose
owner is another equation, or nothing. -/
def StepPost (search : RelocationSearch) (eq : Nat) (visits visits' : RelocationVisits) : AugmentStep → Prop
  | .Claim v => v ∈ search.context.eqVars.row eq ∧ ¬ visits.Visited v ∧ visits'.Visited v ∧
      ∀ a, search.matching.matchVar v = some a → a = search.root
  | .Descend v owner => v ∈ search.context.eqVars.row eq ∧ ¬ visits.Visited v ∧ visits'.Visited v ∧
      search.matching.matchVar v = some owner ∧ owner ≠ search.root
  | .Exhausted => True

theorem StepPost.of_extends {eq : Nat} {later visits' : RelocationVisits} {step : AugmentStep}
    (hext : visits.Extends later) (h : StepPost search eq later visits' step) :
    StepPost search eq visits visits' step := by
  cases step with
  | Claim v => exact ⟨h.1, fun hv => h.2.1 (hext.2 v hv), h.2.2⟩
  | Descend v owner => exact ⟨h.1, fun hv => h.2.1 (hext.2 v hv), h.2.2⟩
  | Exhausted => trivial

theorem nextRelocationStep_spec (search : RelocationSearch) (eq remaining cursor : Nat) (visits : RelocationVisits) :
    ∃ step c visits', search.nextRelocationStep eq visits remaining cursor = (step, c, visits') ∧
      visits.Extends visits' ∧ StepPost search eq visits visits' step := by
  induction remaining generalizing cursor visits with
  | zero => exact ⟨_, _, _, rfl, .refl _, trivial⟩
  | succ remaining ih =>
    -- what a scan from a later state answers holds from here too
    have hlater : ∀ later, visits.Extends later → ∃ step c visits',
        search.nextRelocationStep eq later remaining (cursor + 1) = (step, c, visits') ∧
          visits.Extends visits' ∧ StepPost search eq visits visits' step := by
      intro later hext
      obtain ⟨step, c, visits', hs, hext', hstep⟩ := ih (cursor + 1) later
      exact ⟨step, c, visits', hs, hext.trans hext', hstep.of_extends hext⟩
    unfold RelocationSearch.nextRelocationStep
    split
    · exact ⟨_, _, _, rfl, .refl _, trivial⟩
    · rename_i var hget
      have hrow := RowOrder.mem_of_get hget
      by_cases hskip : search.matching.matchEq eq = some var ∨ visits.vars var = visits.epoch
      · simp only [if_pos hskip]
        exact hlater visits (.refl _)
      simp only [if_neg hskip]
      rw [not_or] at hskip
      have hext := visits.extends_visitVar var
      have hvis := visits.visited_visitVar var
      cases hmv : search.matching.matchVar var with
      | none => exact ⟨_, _, _, rfl, hext, hrow, hskip.2, hvis, fun a ha => by rw [hmv] at ha; cases ha⟩
      | some owner =>
        simp only
        by_cases hroot : owner = search.root
        · simp only [if_pos hroot]
          exact ⟨_, _, _, rfl, hext, hrow, hskip.2, hvis, fun a ha => by
            rw [hmv] at ha; exact Option.some.inj ha ▸ hroot⟩
        simp only [if_neg hroot]
        split
        · exact hlater _ hext
        · exact ⟨_, _, _, rfl, ⟨rfl, hext.2⟩, hrow, hskip.2, hvis, hmv, hroot⟩

/-- The state of the search: the path on the stack, whose unknowns are
distinct and marked, as the preferred one is. -/
structure RelocationInv (search : RelocationSearch) (preferred start : Nat) (stack : List AugmentFrame)
    (visits : RelocationVisits) : Prop where
  path : ∀ top below, stack = top :: below →
    AltPath search.context.eqVars search.matching.matchVar start top.eq below
  nodup : (chosenVars stack.tail).Nodup
  visited : ∀ v ∈ chosenVars stack.tail, visits.Visited v ∧ v ≠ preferred
  preferred : visits.Visited preferred

def RelocationPost (search : RelocationSearch) (nEq preferred : Nat) (r : Option Matching × RelocationVisits) : Prop :=
  ∀ M', r.1 = some M' → M'.AlmostValid search.context.eqVars nEq search.root ∧ search.matching.Grows M' ∧
    M'.matchVar preferred = none

variable (hM : search.matching.Valid search.context.eqVars nEq)
  (hcol : ∀ e, ∀ v ∈ search.context.eqVars.row e, v < nVar) (hpref : search.matching.matchVar preferred = some start)
include hM hcol hpref

theorem relocateTurn_spec (s : List AugmentFrame × RelocationVisits)
    (h : RelocationInv search preferred start s.1 s.2) :
    (∃ s', search.relocateTurn s = some (.next s') ∧ RelocationInv search preferred start s'.1 s'.2 ∧
        2 * unmarked nVar s'.2.vars s'.2.epoch + s'.1.length <
          2 * unmarked nVar s.2.vars s.2.epoch + s.1.length) ∨
      ∃ r, search.relocateTurn s = some (.done r) ∧ RelocationPost search nEq preferred r := by
  obtain ⟨stack, visits⟩ := s
  cases stack with
  | nil => exact .inr ⟨_, rfl, fun M' hM' => by cases hM'⟩
  | cons top below =>
    have hpath := h.path top below rfl
    obtain ⟨step, c, visits', hs, hext, hstep⟩ := nextRelocationStep_spec search top.eq
      ((RowOrder.new search.context top.eq).row.length - top.cursor) top.cursor visits
    cases step with
    | Claim v =>
      obtain ⟨hrow, hnot, -, hfree⟩ := hstep
      have hnd : (v :: chosenVars below).Nodup := List.nodup_cons.2 ⟨fun hm => hnot (h.visited v hm).1, h.nodup⟩
      have hout : preferred ∉ v :: chosenVars below := by
        intro hm
        rcases List.mem_cons.1 hm with rfl | hm
        · exact hnot h.preferred
        · exact (h.visited preferred hm).2 rfl
      refine .inr ⟨_, by simp only [RelocationSearch.relocateTurn, hs]; rfl, fun M' hM' => ?_⟩
      obtain rfl := Option.some.inj hM'
      exact commit_spec c hpath hrow (hM.almost search.root) hfree hpref hnd hout
    | Descend v owner =>
      obtain ⟨hrow, hnot, hvis, howner, -⟩ := hstep
      refine .inl ⟨_, by simp only [RelocationSearch.relocateTurn, hs]; rfl, ⟨fun f rest heq => ?_, ?_, fun w hw => ?_,
        hext.2 _ h.preferred⟩, ?_⟩
      · obtain ⟨rfl, rfl⟩ := List.cons.inj heq
        exact .step rfl howner hrow hpath
      · rw [List.tail_cons, chosenVars_cons rfl, List.nodup_cons]
        exact ⟨fun hm => hnot (h.visited v hm).1, h.nodup⟩
      · rw [List.tail_cons, chosenVars_cons rfl] at hw
        rcases List.mem_cons.1 hw with rfl | hw
        · exact ⟨hvis, fun hp => hnot (hp ▸ h.preferred)⟩
        · exact ⟨hext.2 w (h.visited w hw).1, (h.visited w hw).2⟩
      · have := hext.unmarked_lt (hcol top.eq v hrow) hnot hvis
        simp only [List.length_cons]
        omega
    | Exhausted =>
      refine .inl ⟨_, by simp only [RelocationSearch.relocateTurn, hs]; rfl, ⟨fun f rest heq => ?_, ?_, fun w hw => ?_,
        hext.2 _ h.preferred⟩, ?_⟩
      · simp only at heq
        subst heq
        obtain ⟨⟩ | ⟨-, -, -, hbelow⟩ := hpath
        exact hbelow
      · exact h.nodup.sublist ((List.tail_sublist below).filterMap _)
      · have hw' := h.visited w (((List.tail_sublist below).filterMap _).subset hw)
        exact ⟨hext.2 w hw'.1, hw'.2⟩
      · have : unmarked nVar visits'.vars visits'.epoch ≤ unmarked nVar visits.vars visits.epoch := hext.unmarked_le
        simp only [List.length_cons]
        omega

theorem relocate_spec (hvis : visits.Visited preferred) :
    ∃ r, search.relocate nVar visits start = some r ∧ RelocationPost search nEq preferred r := by
  unfold RelocationSearch.relocate
  split
  · exact ⟨_, rfl, fun M' hM' => by cases hM'⟩
  · refine loop_spec search.relocateTurn (fun s => RelocationInv search preferred start s.1 s.2)
      (fun s => 2 * unmarked nVar s.2.vars s.2.epoch + s.1.length) (RelocationPost search nEq preferred)
      (fun s h => relocateTurn_spec hM hcol hpref s h) (2 * nVar + 2) _ ?_ ?_
    · refine ⟨fun top below heq => ?_, by simp [chosenVars], by simp [chosenVars], hvis⟩
      obtain ⟨rfl, rfl⟩ := List.cons.inj heq
      exact .base
    · have := unmarked_le nVar (visits.visitEq start).vars (visits.visitEq start).epoch
      simp only [List.length_singleton]
      omega

end

/-! ## The pass -/

section
variable {nEq nVar : Nat} {context : MatchContext} {M : Matching}
  (hcol : ∀ e, ∀ v ∈ context.eqVars.row e, v < nVar)
include hcol

theorem tryClaimPreferred_spec (hM : M.Valid context.eqVars nEq) {eq preferred : Nat} (hlt : eq < nEq)
    (hrow : preferred ∈ context.eqVars.row eq) (locked : Nat → Bool) (visits : RelocationVisits) :
    ∃ r, tryClaimPreferred nVar context locked eq preferred M visits = some r ∧
      ∀ M', r.1 = some M' → M'.Valid context.eqVars nEq ∧ M.Grows M' := by
  unfold tryClaimPreferred
  split
  · rename_i hnone
    refine ⟨_, rfl, fun M' hM' => ?_⟩
    obtain rfl := Option.some.inj hM'
    exact ⟨(hM.almost eq).assign_root hrow hlt hnone, grows_assignMatch M eq preferred⟩
  · rename_i owner howner
    split
    · exact ⟨_, rfl, fun M' hM' => by cases hM'⟩
    · let search : RelocationSearch := ⟨eq, M, context, locked⟩
      have hsearch : search.matching.Valid search.context.eqVars nEq := hM
      obtain ⟨r, hr, hpost⟩ := relocate_spec hsearch hcol howner
        (visits.beginSearch.visited_visitVar preferred)
      refine ⟨(r.1.map (assignMatch eq preferred), r.2), by simp only [search] at hr; simp [hr], fun M' hM' => ?_⟩
      obtain ⟨M₁, hM₁, rfl⟩ := Option.map_eq_some_iff.1 hM'
      obtain ⟨halmost, hgrows, hfree⟩ := hpost M₁ hM₁
      exact ⟨halmost.assign_root hrow hlt hfree, hgrows.trans (grows_assignMatch M₁ eq preferred)⟩

theorem preservePreference_spec {s : PreferenceState} (hs : s.matching.Valid context.eqVars nEq) {eq : Nat}
    (hlt : eq < nEq) :
    ∃ s', preservePreference nVar context s eq = some s' ∧ s'.matching.Valid context.eqVars nEq ∧
      s.matching.Grows s'.matching := by
  unfold preservePreference
  split
  · exact ⟨s, rfl, hs, .refl _⟩
  · rename_i preferred hpref
    have hrow : preferred ∈ context.eqVars.row eq := by
      simpa using (Option.filter_eq_some_iff.1 hpref).2
    split
    · exact ⟨_, rfl, hs, .refl _⟩
    · obtain ⟨⟨M', visits⟩, hr, hpost⟩ := tryClaimPreferred_spec hcol hs hlt hrow s.lockedPreferences s.visits
      simp only [hr, Option.bind_eq_bind, Option.bind_some]
      cases M' with
      | none => exact ⟨_, rfl, hs, .refl _⟩
      | some M' =>
        obtain ⟨hv, hg⟩ := hpost M' rfl
        exact ⟨_, rfl, hv, hg⟩

variable (context) in
theorem maximizePreservedPreferences_spec (hM : M.Valid context.eqVars nEq) :
    ∃ M', maximizePreservedPreferences nEq nVar context M = some M' ∧ M'.Valid context.eqVars nEq ∧ M.Grows M' := by
  obtain ⟨s, hs, hvalid, hgrows⟩ := foldlM_spec (l := List.range nEq)
    (fun _ (s : PreferenceState) => s.matching.Valid context.eqVars nEq ∧ M.Grows s.matching)
    (fun pre eq post s hl hs => by
      have hlt : eq < nEq := List.mem_range.1 (hl ▸ by simp)
      obtain ⟨s', hs', hv, hg⟩ := preservePreference_spec hcol hs.1 hlt
      exact ⟨s', hs', hv, hs.2.trans hg⟩) (s := ⟨M, .new, fun _ => false⟩) ⟨hM, .refl M⟩
  exact ⟨s.matching, by simp [maximizePreservedPreferences, hs], hvalid, hgrows⟩

end

end Rumoca.Structural
