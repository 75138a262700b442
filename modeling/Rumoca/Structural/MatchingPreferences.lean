import Rumoca.Structural.MatchingMax
/-!
# Preferences are kept lexicographically

A relocation that fails has marked a set of equations whose unknowns are all
marked, each owned by a marked or a locked equation. The root's preferred
unknown is among them and its owner is not the root, so no matching of all
equations gives the root that unknown and leaves the locked ones theirs.
`maximumMatchingWithStructured_preferences` is the induction on the equations.
-/

namespace Rumoca.Structural

open Rumoca.Lib Matching

/-! ## What a relocation marks -/

def RelocationVisits.Reached (visits : RelocationVisits) (e : Nat) : Prop := visits.equations e = visits.epoch

theorem RelocationVisits.reached_visitEq {visits : RelocationVisits} {e a : Nat} :
    (visits.visitEq e).Reached a ↔ a = e ∨ visits.Reached a := by
  by_cases ha : a = e <;> simp [Reached, visitEq, ha]

theorem RelocationVisits.visited_visitVar_iff {visits : RelocationVisits} {v w : Nat} :
    (visits.visitVar v).Visited w ↔ w = v ∨ visits.Visited w := by
  by_cases hw : w = v <;> simp [Visited, visitVar, hw]

theorem RelocationVisits.reached_visitVar {visits : RelocationVisits} {v e : Nat} :
    (visits.visitVar v).Reached e ↔ visits.Reached e := .rfl

/-- No mark is of a later search. -/
structure RelocationVisits.Bounded (visits : RelocationVisits) : Prop where
  vars_le : ∀ v, visits.vars v ≤ visits.epoch
  equations_le : ∀ e, visits.equations e ≤ visits.epoch

theorem RelocationVisits.Bounded.visitVar {visits : RelocationVisits} (h : visits.Bounded) (v : Nat) :
    (visits.visitVar v).Bounded := by
  refine ⟨fun w => ?_, h.equations_le⟩
  by_cases hw : w = v
  · simp [RelocationVisits.visitVar, hw]
  · simpa [RelocationVisits.visitVar, hw] using h.vars_le w

theorem RelocationVisits.Bounded.visitEq {visits : RelocationVisits} (h : visits.Bounded) (e : Nat) :
    (visits.visitEq e).Bounded := by
  refine ⟨h.vars_le, fun a => ?_⟩
  by_cases ha : a = e
  · simp [RelocationVisits.visitEq, ha]
  · simpa [RelocationVisits.visitEq, ha] using h.equations_le a

theorem RelocationVisits.Bounded.beginSearch {visits : RelocationVisits} (h : visits.Bounded) :
    visits.beginSearch.Bounded ∧ (∀ v, ¬ visits.beginSearch.Visited v) ∧ ∀ e, ¬ visits.beginSearch.Reached e := by
  unfold RelocationVisits.beginSearch Visited Reached
  split
  · exact ⟨⟨fun _ => Nat.zero_le _, fun _ => Nat.zero_le _⟩, by simp, by simp⟩
  · have hv := h.vars_le
    have he := h.equations_le
    refine ⟨⟨fun v => ?_, fun e => ?_⟩, fun v => ?_, fun e => ?_⟩
    · exact (hv v).trans (Nat.le_succ _)
    · exact (he e).trans (Nat.le_succ _)
    · have := hv v
      simp only
      omega
    · have := he e
      simp only
      omega

theorem nextRelocationStep_bounded (search : RelocationSearch) {visits : RelocationVisits} (h : visits.Bounded)
    (eq remaining cursor : Nat) : (search.nextRelocationStep eq visits remaining cursor).2.2.Bounded := by
  induction remaining generalizing cursor visits with
  | zero => exact h
  | succ remaining ih =>
    unfold RelocationSearch.nextRelocationStep
    split
    · exact h
    split
    · exact ih h _
    simp only
    split
    · exact h.visitVar _
    split
    · exact h.visitVar _
    split
    · exact ih (h.visitVar _) _
    · exact (h.visitVar _).visitEq _

/-- A marked unknown is owned by an equation that is marked or locked, and a
marked equation was marked for its unknown. -/
structure Marks (search : RelocationSearch) (visits : RelocationVisits) : Prop where
  owner : ∀ v, visits.Visited v → ∃ e, search.matching.matchVar v = some e ∧ e ≠ search.root ∧
    (visits.Reached e ∨ search.lockedPreferences e = true)
  reached : ∀ e, visits.Reached e → search.lockedPreferences e = false ∧
    ∃ v, search.matching.matchVar v = some e ∧ visits.Visited v

def Passed (search : RelocationSearch) (visits : RelocationVisits) (eq v : Nat) : Prop :=
  search.matching.matchEq eq = some v ∨ visits.Visited v

theorem Passed.extends {search : RelocationSearch} {visits visits' : RelocationVisits} {eq v : Nat}
    (h : Passed search visits eq v) (hext : visits.Extends visits') : Passed search visits' eq v :=
  h.imp id (hext.2 v)

/-- A scan from `cursor` that got to `stop`, with the equation it descends to. -/
structure ScanKeeps (search : RelocationSearch) (eq cursor stop : Nat) (next : Option Nat)
    (visits visits' : RelocationVisits) : Prop where
  extended : visits.Extends visits'
  marks : Marks search visits'
  passed : ∀ j, cursor ≤ j → j < stop → ∀ v, (RowOrder.new search.context eq).get j = some v →
    Passed search visits' eq v
  reached : ∀ e, visits'.Reached e ↔ visits.Reached e ∨ next = some e

section
variable {search : RelocationSearch} {visits : RelocationVisits} {eq cursor stop v owner : Nat} {next : Option Nat}

theorem Marks.visitVar (h : Marks search visits) (howner : search.matching.matchVar v = some owner)
    (hroot : owner ≠ search.root) (hstop : visits.Reached owner ∨ search.lockedPreferences owner = true) :
    Marks search (visits.visitVar v) := by
  refine ⟨fun w hw => ?_, fun e he => ?_⟩
  · rcases RelocationVisits.visited_visitVar_iff.1 hw with rfl | hw
    · exact ⟨owner, howner, hroot, hstop⟩
    · exact h.owner w hw
  · obtain ⟨hlocked, w, hw, hvis⟩ := h.reached e he
    exact ⟨hlocked, w, hw, RelocationVisits.visited_visitVar_iff.2 (.inr hvis)⟩

theorem Marks.visitEq (h : Marks search visits) (howner : search.matching.matchVar v = some owner)
    (hroot : owner ≠ search.root) (hlocked : search.lockedPreferences owner = false) :
    Marks search ((visits.visitVar v).visitEq owner) := by
  refine ⟨fun w hw => ?_, fun e he => ?_⟩
  · rcases RelocationVisits.visited_visitVar_iff.1 hw with rfl | hw
    · exact ⟨owner, howner, hroot, .inl (RelocationVisits.reached_visitEq.2 (.inl rfl))⟩
    · obtain ⟨e, he, hne, hor⟩ := h.owner w hw
      exact ⟨e, he, hne, hor.imp (fun hr => RelocationVisits.reached_visitEq.2 (.inr hr)) id⟩
  · rcases RelocationVisits.reached_visitEq.1 he with rfl | he
    · exact ⟨hlocked, v, howner, RelocationVisits.visited_visitVar_iff.2 (.inl rfl)⟩
    · obtain ⟨hl, w, hw, hvis⟩ := h.reached e he
      exact ⟨hl, w, hw, RelocationVisits.visited_visitVar_iff.2 (.inr hvis)⟩

theorem ScanKeeps.cons {later visits' : RelocationVisits} (h : ScanKeeps search eq (cursor + 1) stop next later visits')
    (hext : visits.Extends later) (hreached : ∀ e, later.Reached e ↔ visits.Reached e)
    (hget : (RowOrder.new search.context eq).get cursor = some v) (hpassed : Passed search later eq v) :
    ScanKeeps search eq cursor stop next visits visits' := by
  refine ⟨hext.trans h.extended, h.marks, fun j hj hjs w hw => ?_, fun e => by rw [h.reached e, hreached e]⟩
  rcases Nat.eq_or_lt_of_le hj with rfl | hlt
  · rw [hget] at hw
    exact Option.some.inj hw ▸ hpassed.extends h.extended
  · exact h.passed j hlt hjs w hw

def ScanPost (search : RelocationSearch) (eq cursor stop : Nat) (visits visits' : RelocationVisits) :
    AugmentStep → Prop
  | .Claim _ => True
  | .Descend _ owner => stop ≤ (search.context.eqVars.row eq).length ∧
      ScanKeeps search eq cursor stop (some owner) visits visits'
  | .Exhausted => ScanKeeps search eq cursor (search.context.eqVars.row eq).length none visits visits'

theorem ScanPost.cons {later visits' : RelocationVisits} {step : AugmentStep}
    (h : ScanPost search eq (cursor + 1) stop later visits' step)
    (hext : visits.Extends later) (hreached : ∀ e, later.Reached e ↔ visits.Reached e)
    (hget : (RowOrder.new search.context eq).get cursor = some v) (hpassed : Passed search later eq v) :
    ScanPost search eq cursor stop visits visits' step := by
  cases step with
  | Claim => trivial
  | Descend => exact ⟨h.1, h.2.cons hext hreached hget hpassed⟩
  | Exhausted => exact ScanKeeps.cons h hext hreached hget hpassed

variable (eq cursor) in
theorem nextRelocationStep_post (hM : Marks search visits) (remaining : Nat)
    (hlen : remaining + cursor = (search.context.eqVars.row eq).length) :
    ScanPost search eq cursor (search.nextRelocationStep eq visits remaining cursor).2.1 visits
      (search.nextRelocationStep eq visits remaining cursor).2.2
      (search.nextRelocationStep eq visits remaining cursor).1 := by
  induction remaining generalizing cursor visits with
  | zero => exact ⟨.refl _, hM, fun j hj hjs => by omega, fun e => by simp [RelocationSearch.nextRelocationStep]⟩
  | succ remaining ih =>
    obtain ⟨v, hget⟩ : ∃ v, (RowOrder.new search.context eq).get cursor = some v := RowOrder.get_isSome (by omega)
    have hvis : (visits.visitVar v).Visited v := visits.visited_visitVar v
    simp only [RelocationSearch.nextRelocationStep, hget]
    by_cases hskip : search.matching.matchEq eq = some v ∨ visits.vars v = visits.epoch
    · rw [if_pos hskip]
      exact (ih _ hM (by omega)).cons (.refl _) (fun _ => .rfl) hget hskip
    rw [if_neg hskip]
    cases howner : search.matching.matchVar v with
    | none => trivial
    | some owner =>
      simp only
      by_cases hroot : owner = search.root
      · rw [if_pos hroot]
        trivial
      rw [if_neg hroot]
      by_cases hstop : (visits.visitVar v).equations owner = (visits.visitVar v).epoch ∨
          search.lockedPreferences owner = true
      · rw [if_pos hstop]
        exact (ih _ (hM.visitVar howner hroot hstop) (by omega)).cons (visits.extends_visitVar v) (fun _ => .rfl) hget
          (.inr hvis)
      · rw [if_neg hstop]
        rw [not_or, Bool.not_eq_true] at hstop
        refine ⟨by simp only; omega, visits.extends_visitVar v, hM.visitEq howner hroot hstop.2,
          fun j hj hjs w hw => ?_, fun e => ?_⟩
        · obtain rfl : j = cursor := by
            simp only at hjs
            omega
          rw [hget] at hw
          exact .inr (Option.some.inj hw ▸ hvis)
        · rw [RelocationVisits.reached_visitEq, RelocationVisits.reached_visitVar, or_comm, Option.some.injEq,
            eq_comm (a := e)]

/-! ## The search -/

/-- The marks of a search, and the equations already scanned. -/
structure RelocationClosed (search : RelocationSearch) (start : Nat) (stack : List AugmentFrame)
    (visits : RelocationVisits) : Prop where
  bounded : visits.Bounded
  marks : Marks search visits
  start : visits.Reached start
  scanned : ∀ f ∈ stack, visits.Reached f.eq ∧ f.cursor ≤ (search.context.eqVars.row f.eq).length ∧
    ∀ j < f.cursor, ∀ v, (RowOrder.new search.context f.eq).get j = some v → Passed search visits f.eq v
  closed : ∀ e, visits.Reached e → (∃ f ∈ stack, f.eq = e) ∨
    ∀ v ∈ search.context.eqVars.row e, Passed search visits e v

/-- A failed search closed its marks; a successful one moved no locked equation. -/
structure ClosedPost (search : RelocationSearch) (start : Nat) (r : Option Matching × RelocationVisits) : Prop where
  bounded : r.2.Bounded
  failed : r.1 = none → RelocationClosed search start [] r.2
  kept : ∀ M', r.1 = some M' → ∀ e, search.lockedPreferences e = true → M'.matchEq e = search.matching.matchEq e

theorem assignMatch_matchEq_of_ne {M : Matching} {e v a : Nat} (h : a ≠ e) :
    (assignMatch e v M).matchEq a = M.matchEq a := by
  simp [assignMatch, h]

theorem commit_matchEq (stack : List AugmentFrame) (M : Matching) {a : Nat} (h : ∀ f ∈ stack, f.eq ≠ a) :
    (RelocationSearch.commit stack M).matchEq a = M.matchEq a := by
  unfold RelocationSearch.commit
  induction stack generalizing M with
  | nil => rfl
  | cons f stack ih =>
    rw [List.foldl_cons, ih _ fun g hg => h g (List.mem_cons_of_mem _ hg)]
    cases f.chosen with
    | none => rfl
    | some v => exact assignMatch_matchEq_of_ne (h f (List.mem_cons_self ..)).symm

theorem ScanKeeps.passed_row {visits' : RelocationVisits}
    (h : ScanKeeps search eq cursor stop next visits visits')
    (hbefore : ∀ j < cursor, ∀ v, (RowOrder.new search.context eq).get j = some v → Passed search visits eq v) :
    ∀ j < stop, ∀ v, (RowOrder.new search.context eq).get j = some v → Passed search visits' eq v := by
  intro j hj v hv
  rcases Nat.lt_or_ge j cursor with hlt | hge
  · exact (hbefore j hlt v hv).extends h.extended
  · exact h.passed j hge hj v hv

variable {start : Nat}

theorem relocateTurn_closed (s : List AugmentFrame × RelocationVisits) (h : RelocationClosed search start s.1 s.2) :
    (∀ s', search.relocateTurn s = some (.next s') → RelocationClosed search start s'.1 s'.2) ∧
      ∀ r, search.relocateTurn s = some (.done r) → ClosedPost search start r := by
  obtain ⟨stack, visits⟩ := s
  cases stack with
  | nil =>
    refine ⟨fun s' hs' => (by cases hs'), fun r hr => ?_⟩
    simp only [RelocationSearch.relocateTurn, Option.some.injEq, Ctl.done.injEq] at hr
    subst hr
    exact ⟨h.bounded, fun _ => h, fun M' hM' => by cases hM'⟩
  | cons top below =>
    obtain ⟨hreached, hle, hbefore⟩ := h.scanned top (List.mem_cons_self ..)
    have hpost := nextRelocationStep_post top.eq top.cursor h.marks
      ((search.context.eqVars.row top.eq).length - top.cursor) (Nat.sub_add_cancel hle)
    have hbelow : ∀ visits', visits.Extends visits' → (∀ e, visits.Reached e → visits'.Reached e) → ∀ f ∈ below,
        visits'.Reached f.eq ∧ f.cursor ≤ (search.context.eqVars.row f.eq).length ∧
          ∀ j < f.cursor, ∀ v, (RowOrder.new search.context f.eq).get j = some v → Passed search visits' f.eq v := by
      intro visits' hext hkeep f hf
      obtain ⟨hr, hl, hp⟩ := h.scanned f (List.mem_cons_of_mem _ hf)
      exact ⟨hkeep _ hr, hl, fun j hj v hv => (hp j hj v hv).extends hext⟩
    simp only [RelocationSearch.relocateTurn]
    rw [show (RowOrder.new search.context top.eq).row = search.context.eqVars.row top.eq from rfl]
    have hbounded := nextRelocationStep_bounded search h.bounded top.eq
      ((search.context.eqVars.row top.eq).length - top.cursor) top.cursor
    generalize hstep : search.nextRelocationStep top.eq visits
      ((search.context.eqVars.row top.eq).length - top.cursor) top.cursor = result at hpost hbounded
    obtain ⟨step, stop, visits'⟩ := result
    cases step with
    | Claim v =>
      refine ⟨fun s' hs' => by simp at hs', fun r hr => ?_⟩
      simp only [Option.some.injEq, Ctl.done.injEq] at hr
      subst hr
      refine ⟨hbounded, fun hnone => by simp at hnone, fun M' hM' e he => ?_⟩
      obtain rfl := Option.some.inj hM'
      refine commit_matchEq _ _ fun f hf hfe => ?_
      have hlocked : ∀ e', visits.Reached e' → search.lockedPreferences e' = false := fun e' he' =>
        (h.marks.reached e' he').1
      subst hfe
      rcases List.mem_cons.1 hf with rfl | hf
      · rw [hlocked _ hreached] at he
        cases he
      · rw [hlocked _ (h.scanned f (List.mem_cons_of_mem _ hf)).1] at he
        cases he
    | Descend v owner =>
      obtain ⟨hstop, hkeeps⟩ := hpost
      refine ⟨fun s' hs' => ?_, fun r hr => by simp at hr⟩
      simp only [Option.some.injEq, Ctl.next.injEq] at hs'
      subst hs'
      have hkeep : ∀ e, visits.Reached e → visits'.Reached e := fun e he => (hkeeps.reached e).2 (.inl he)
      refine ⟨hbounded, hkeeps.marks, hkeep _ h.start, fun f hf => ?_, fun e he => ?_⟩
      · rcases List.mem_cons.1 hf with rfl | hf
        · exact ⟨(hkeeps.reached owner).2 (.inr rfl), Nat.zero_le _, fun j hj => absurd hj (Nat.not_lt_zero j)⟩
        rcases List.mem_cons.1 hf with rfl | hf
        · exact ⟨hkeep _ hreached, hstop, hkeeps.passed_row hbefore⟩
        · exact hbelow visits' hkeeps.extended hkeep f hf
      · rcases (hkeeps.reached e).1 he with he | heq
        · rcases h.closed e he with ⟨f, hf, rfl⟩ | hrow
          · rcases List.mem_cons.1 hf with rfl | hf
            · exact .inl ⟨_, List.mem_cons_of_mem _ (List.mem_cons_self ..), rfl⟩
            · exact .inl ⟨f, List.mem_cons_of_mem _ (List.mem_cons_of_mem _ hf), rfl⟩
          · exact .inr fun w hw => (hrow w hw).extends hkeeps.extended
        · exact .inl ⟨_, List.mem_cons_self .., Option.some.inj heq⟩
    | Exhausted =>
      refine ⟨fun s' hs' => ?_, fun r hr => by simp at hr⟩
      simp only [Option.some.injEq, Ctl.next.injEq] at hs'
      subst hs'
      have hkeeps : ScanKeeps search top.eq top.cursor (search.context.eqVars.row top.eq).length none visits visits' :=
        hpost
      have hkeep : ∀ e, visits'.Reached e ↔ visits.Reached e := fun e => by
        rw [hkeeps.reached e]
        simp
      refine ⟨hbounded, hkeeps.marks, (hkeep _).2 h.start, hbelow visits' hkeeps.extended fun e he => (hkeep e).2 he,
        fun e he => ?_⟩
      rcases h.closed e ((hkeep e).1 he) with ⟨f, hf, rfl⟩ | hrow
      · rcases List.mem_cons.1 hf with rfl | hf
        · -- the top equation has seen its whole row
          refine .inr fun v hv => ?_
          obtain ⟨j, hj, hget⟩ := RowOrder.exists_get hv
          exact hkeeps.passed_row hbefore j hj v hget
        · exact .inl ⟨f, hf, rfl⟩
      · exact .inr fun w hw => (hrow w hw).extends hkeeps.extended

end

section
variable {nEq nVar preferred start : Nat} {search : RelocationSearch} {visits : RelocationVisits}

theorem relocationClosed_start (hb : visits.Bounded) (hvisited : ∀ v, visits.Visited v ↔ v = preferred) (hreached : ∀ e, ¬ visits.Reached e)
    (howner : search.matching.matchVar preferred = some start) (hroot : start ≠ search.root)
    (hlocked : search.lockedPreferences start = false) :
    RelocationClosed search start [AugmentFrame.new start] (visits.visitEq start) := by
  have hstart : ∀ e, (visits.visitEq start).Reached e ↔ e = start := fun e => by
    rw [RelocationVisits.reached_visitEq]
    simp [hreached e]
  refine ⟨hb.visitEq start, ⟨fun v hv => ?_, fun e he => ?_⟩, (hstart start).2 rfl, fun f hf => ?_, fun e he => ?_⟩
  · obtain rfl := (hvisited v).1 hv
    exact ⟨start, howner, hroot, .inl ((hstart start).2 rfl)⟩
  · obtain rfl := (hstart e).1 he
    exact ⟨hlocked, preferred, howner, (hvisited preferred).2 rfl⟩
  · obtain rfl := List.mem_singleton.1 hf
    exact ⟨(hstart start).2 rfl, Nat.zero_le _, fun j hj => absurd hj (Nat.not_lt_zero j)⟩
  · exact .inl ⟨_, List.mem_singleton.2 rfl, ((hstart e).1 he).symm⟩

variable (search) in
theorem relocate_closed (hM : search.matching.Valid search.context.eqVars nEq)
    (hcol : ∀ e, ∀ v ∈ search.context.eqVars.row e, v < nVar) (hb : visits.Bounded)
    (hvisited : ∀ v, visits.Visited v ↔ v = preferred) (hreached : ∀ e, ¬ visits.Reached e)
    (howner : search.matching.matchVar preferred = some start) (hroot : start ≠ search.root)
    (hlocked : search.lockedPreferences start = false) :
    ∃ r, search.relocate nVar visits start = some r ∧ RelocationPost search nEq preferred r ∧
      ClosedPost search start r := by
  have hnot : ¬ (visits.equations start = visits.epoch ∨ search.lockedPreferences start = true) := by
    rw [hlocked, not_or]
    exact ⟨hreached start, by simp⟩
  unfold RelocationSearch.relocate
  rw [if_neg hnot]
  refine loop_spec search.relocateTurn
    (fun s => RelocationInv search preferred start s.1 s.2 ∧ RelocationClosed search start s.1 s.2)
    (fun s => 2 * unmarked nVar s.2.vars s.2.epoch + s.1.length)
    (fun r => RelocationPost search nEq preferred r ∧ ClosedPost search start r) (fun s hs => ?_) (2 * nVar + 2) _
    ⟨?_, relocationClosed_start hb hvisited hreached howner hroot hlocked⟩ ?_
  · obtain ⟨hnext, hdone⟩ := relocateTurn_closed s hs.2
    rcases relocateTurn_spec hM hcol howner s hs.1 with ⟨s', hs', hinv, hlt⟩ | ⟨r, hr, hpost⟩
    · exact .inl ⟨s', hs', ⟨hinv, hnext s' hs'⟩, hlt⟩
    · exact .inr ⟨r, hr, hpost, hdone r hr⟩
  · refine ⟨fun top below heq => ?_, by simp [chosenVars], by simp [chosenVars], (hvisited preferred).2 rfl⟩
    obtain ⟨rfl, rfl⟩ := List.cons.inj heq
    exact .base
  · have := unmarked_le nVar (visits.visitEq start).vars (visits.visitEq start).epoch
    simp only [List.length_singleton]
    omega

/-! ## What a failure shows -/

/-- A failed search leaves no matching of the marked and locked equations that gives the root what it asks for. -/
theorem RelocationClosed.no_matching (h : RelocationClosed search start [] visits)
    (hM : search.matching.Valid search.context.eqVars nEq)
    (hcol : ∀ e, ∀ v ∈ search.context.eqVars.row e, v < nVar)
    (hpreferred : visits.Visited preferred) (hrow : preferred ∈ search.context.eqVars.row search.root) {m : Nat → Option Nat}
    (hm : IsMatching (fun e v => v ∈ search.context.eqVars.row e) m) (hall : ∀ e < nEq, ∃ v, m e = some v)
    (hroot : m search.root = some preferred)
    (hkeep : ∀ e, search.lockedPreferences e = true → m e = search.matching.matchEq e) : False := by
  classical
  let V := (Finset.range nVar).filter visits.Visited
  let owner : Nat → Nat := fun v => (search.matching.matchVar v).getD 0
  have hV : ∀ v e, v ∈ search.context.eqVars.row e → visits.Visited v → v ∈ V := fun v e hv hvis =>
    Finset.mem_filter.2 ⟨Finset.mem_range.2 (hcol e v hv), hvis⟩
  have howns : ∀ v ∈ V, search.matching.matchVar v = some (owner v) := fun v hv => by
    obtain ⟨e, he, -⟩ := h.marks.owner v (Finset.mem_filter.1 hv).2
    simp only [owner, he, Option.getD_some]
  refine hm.no_extra_owner V owner search.root (fun v hv w hw heq => ?_) (fun hmem => ?_) fun a ha => ?_
  · have h1 := hM.eq_of_var _ _ (howns v hv)
    have h2 := hM.eq_of_var _ _ (howns w hw)
    rw [heq, h2] at h1
    exact (Option.some.inj h1).symm
  · obtain ⟨v, hv, heq⟩ := Finset.mem_image.1 hmem
    obtain ⟨e, he, hne, -⟩ := h.marks.owner v (Finset.mem_filter.1 hv).2
    have howns := howns v hv
    rw [he] at howns
    exact hne ((Option.some.inj howns).trans heq)
  · rcases Finset.mem_insert.1 ha with rfl | ha
    · exact ⟨preferred, hV _ _ hrow hpreferred, hroot⟩
    obtain ⟨v, hv, rfl⟩ := Finset.mem_image.1 ha
    obtain ⟨e, he, -, hor⟩ := h.marks.owner v (Finset.mem_filter.1 hv).2
    have heo : owner v = e := by simp only [owner, he, Option.getD_some]
    have hev := hM.eq_of_var e v he
    rw [heo]
    rcases hor with hreached | hl
    · -- a marked equation sees marked unknowns only
      obtain ⟨w, hw⟩ := hall e (hM.edge e v hev).2
      have hrow := hm.edge e w hw
      have hpassed := (h.closed e hreached).resolve_left (by simp) w hrow
      refine ⟨w, hV w e hrow (hpassed.elim (fun heq => ?_) id), hw⟩
      rw [hev] at heq
      exact Option.some.inj heq ▸ (Finset.mem_filter.1 hv).2
    · exact ⟨v, hv, (hkeep e hl).trans hev⟩

end

/-! ## Claiming a preference -/

section
variable {rows : IncidenceRows} {nEq nVar : Nat} {context : MatchContext} {M : Matching} {locked : Nat → Bool}

/-- Every one of the first `nEq` equations has a match. -/
def AllMatched (nEq : Nat) (M : Matching) : Prop := ∀ e < nEq, M.Matches e

/-- The outcome of one claim: the matching in which `eq` owns `preferred` and the locked equations
what they had, or none, and then there is none among all matchings of the equations. -/
structure ClaimPost (context : MatchContext) (nEq : Nat) (locked : Nat → Bool) (eq preferred : Nat) (M : Matching)
    (r : Option Matching × RelocationVisits) : Prop where
  bounded : r.2.Bounded
  claimed : ∀ M', r.1 = some M' → M'.Valid context.eqVars nEq ∧ M.Grows M' ∧ M'.matchEq eq = some preferred ∧
    ∀ e, locked e = true → M'.matchEq e = M.matchEq e
  refused : r.1 = none → ∀ m, IsMatching (fun e v => v ∈ context.eqVars.row e) m → (∀ e < nEq, ∃ v, m e = some v) →
    m eq = some preferred → ¬ ∀ e, locked e = true → m e = M.matchEq e

theorem tryClaimPreferred_post (hM : M.Valid context.eqVars nEq)
    (hcol : ∀ e, ∀ v ∈ context.eqVars.row e, v < nVar) {eq preferred : Nat} (hlt : eq < nEq)
    (hrow : preferred ∈ context.eqVars.row eq) (hfree : locked eq = false) (hne : M.matchEq eq ≠ some preferred)
    {visits : RelocationVisits} (hb : visits.Bounded) :
    ∃ r, tryClaimPreferred nVar context locked eq preferred M visits = some r ∧
      ClaimPost context nEq locked eq preferred M r := by
  have hassign : ∀ M' : Matching, ∀ e, locked e = true → (assignMatch eq preferred M').matchEq e = M'.matchEq e :=
    fun M' e he => assignMatch_matchEq_of_ne fun h => by
      rw [h, hfree] at he
      cases he
  unfold tryClaimPreferred
  split
  · rename_i hnone
    refine ⟨_, rfl, hb, fun M' hM' => ?_, fun h => by simp at h⟩
    obtain rfl := Option.some.inj hM'
    exact ⟨(hM.almost eq).assign_root hrow hlt hnone, grows_assignMatch M eq preferred,
      assignMatch_matchEq.2 (.inl ⟨rfl, rfl⟩), hassign M⟩
  rename_i start hstart
  have hroot : start ≠ eq := fun h => hne (h ▸ hM.eq_of_var start preferred hstart)
  rw [if_neg hroot]
  obtain ⟨hb', hunvisited, hunreached⟩ := hb.beginSearch
  let search : RelocationSearch := ⟨eq, M, context, locked⟩
  have hvisited : ∀ v, (visits.beginSearch.visitVar preferred).Visited v ↔ v = preferred := fun v => by
    rw [RelocationVisits.visited_visitVar_iff]
    simp [hunvisited v]
  cases hlocked : locked start with
  | true =>
    have hrun : search.relocate nVar (visits.beginSearch.visitVar preferred) start =
        some (none, visits.beginSearch.visitVar preferred) := by
      unfold RelocationSearch.relocate
      exact if_pos (.inr hlocked)
    refine ⟨(none, visits.beginSearch.visitVar preferred), ?_, hb'.visitVar preferred, fun M' hM' => (by cases hM'),
      fun _ m hm _ hmeq hkeep => ?_⟩
    · simp only [search] at hrun
      simp [hrun]
    · -- a locked owner keeps the unknown in every such matching
      have hmstart := (hkeep start hlocked).trans (hM.eq_of_var start preferred hstart)
      exact hroot (hm.injective start eq preferred hmstart hmeq)
  | false =>
    obtain ⟨r, hr, hpost, hclosed⟩ := relocate_closed search hM hcol (hb'.visitVar preferred) hvisited
      (fun e => hunreached e) hstart hroot hlocked
    refine ⟨(r.1.map (assignMatch eq preferred), r.2), ?_, hclosed.bounded, fun M' hM' => ?_,
      fun hnone m hm hall hmeq hkeep => ?_⟩
    · simp only [search] at hr
      simp [hr]
    · obtain ⟨M₁, hM₁, rfl⟩ := Option.map_eq_some_iff.1 hM'
      obtain ⟨halmost, hgrows, hpfree⟩ := hpost M₁ hM₁
      exact ⟨halmost.assign_root hrow hlt hpfree, hgrows.trans (grows_assignMatch M₁ eq preferred),
        assignMatch_matchEq.2 (.inl ⟨rfl, rfl⟩), fun e he => (hassign M₁ e he).trans (hclosed.kept M₁ hM₁ e he)⟩
    · have hfailed := hclosed.failed (Option.map_eq_none_iff.1 hnone)
      obtain ⟨-, w, hw, hwvis⟩ := hfailed.marks.reached start hfailed.start
      have hwp : w = preferred := by
        have h1 := hM.eq_of_var start w hw
        rw [hM.eq_of_var start preferred hstart] at h1
        exact (Option.some.inj h1).symm
      exact hfailed.no_matching hM hcol (hwp ▸ hwvis) hrow hm hall hmeq hkeep

/-! ## The pass over the equations -/

/-- `p` is what `e` prefers, and one of its unknowns. -/
def IncidentPreference (rows : IncidenceRows) (preferredVars : List (Option Nat)) (e p : Nat) : Prop :=
  preferredVars[e]? = some (some p) ∧ p ∈ rows.row e

/-- A maximum matching gives `e` the unknown `p`, and every granted equation before `e` what it prefers. -/
def Grantable (rows : IncidenceRows) (nEq : Nat) (preferredVars : List (Option Nat)) (granted : Nat → Prop)
    (e p : Nat) : Prop :=
  ∃ m, IsMatching (fun e v => v ∈ rows.row e) m ∧ IsMaximum (fun e v => v ∈ rows.row e) (Finset.range nEq) m ∧
    m e = some p ∧ ∀ e' < e, ∀ q, IncidentPreference rows preferredVars e' q → granted e' → m e' = some q

theorem IncidentPreference.unique {preferredVars : List (Option Nat)} {e p q : Nat}
    (h : IncidentPreference rows preferredVars e p) (h' : IncidentPreference rows preferredVars e q) : p = q := by
  have heq := h.1
  rw [h'.1] at heq
  simpa using heq.symm

theorem Grantable.congr {preferredVars : List (Option Nat)} {granted granted' : Nat → Prop} {e p : Nat}
    (h : Grantable rows nEq preferredVars granted e p) (hsub : ∀ e' < e, granted' e' → granted e') :
    Grantable rows nEq preferredVars granted' e p := by
  obtain ⟨m, hm, hmax, heq, hkeep⟩ := h
  exact ⟨m, hm, hmax, heq, fun e' he' q hq hg => hkeep e' he' q hq (hsub e' he' hg)⟩

/-- The state before equation `k`: the locked equations own what they prefer,
and an earlier equation is locked exactly where that could be had. -/
structure PreferenceInv (nEq : Nat) (context : MatchContext) (k : Nat) (s : PreferenceState) : Prop where
  valid : s.matching.Valid context.eqVars nEq
  all : AllMatched nEq s.matching
  bounded : s.visits.Bounded
  owned : ∀ e, s.lockedPreferences e = true → e < k ∧ ∃ p, IncidentPreference context.eqVars context.preferredVars e p ∧
    s.matching.matchEq e = some p
  granted : ∀ e < k, ∀ p, IncidentPreference context.eqVars context.preferredVars e p →
    (s.lockedPreferences e = true ↔
      Grantable context.eqVars nEq context.preferredVars (fun e => s.lockedPreferences e = true) e p)

theorem PreferenceInv.grantable {k : Nat} {s : PreferenceState} (h : PreferenceInv nEq context k s) {e p : Nat}
    (hp : s.matching.matchEq e = some p) :
    Grantable context.eqVars nEq context.preferredVars (fun e => s.lockedPreferences e = true) e p := by
  refine ⟨s.matching.matchEq, h.valid.isMatching, IsMaximum.of_all fun e he => h.all e (Finset.mem_range.1 he), hp,
    fun e' _ q hq hg => ?_⟩
  obtain ⟨-, q', hq', hmatch⟩ := h.owned e' hg
  rw [hmatch, hq'.unique hq]

theorem PreferenceInv.skip {k : Nat} {s : PreferenceState} (h : PreferenceInv nEq context k s)
    {visits : RelocationVisits} (hb : visits.Bounded)
    (hrefused : ∀ p, IncidentPreference context.eqVars context.preferredVars k p →
      ¬ Grantable context.eqVars nEq context.preferredVars (fun e => s.lockedPreferences e = true) k p) :
    PreferenceInv nEq context (k + 1) { s with visits := visits } := by
  refine ⟨h.valid, h.all, hb, fun e he => ?_, fun e he p hp => ?_⟩
  · obtain ⟨hlt, hown⟩ := h.owned e he
    exact ⟨by omega, hown⟩
  · rcases Nat.eq_or_lt_of_le (Nat.le_of_lt_succ he) with rfl | hlt
    · refine ⟨fun hl => ?_, fun hg => absurd hg (hrefused p hp)⟩
      exact absurd (h.owned e hl).1 (Nat.lt_irrefl e)
    · exact h.granted e hlt p hp

/-- The state after `k` got what it prefers. -/
theorem PreferenceInv.grant {k : Nat} {s : PreferenceState} (h : PreferenceInv nEq context k s) {p : Nat}
    (hp : IncidentPreference context.eqVars context.preferredVars k p) {M' : Matching} {visits : RelocationVisits}
    (hvalid : M'.Valid context.eqVars nEq) (hall : AllMatched nEq M') (hb : visits.Bounded)
    (hk : M'.matchEq k = some p)
    (hkept : ∀ e, s.lockedPreferences e = true → M'.matchEq e = s.matching.matchEq e) :
    PreferenceInv nEq context (k + 1) ⟨M', visits, Function.update s.lockedPreferences k true⟩ := by
  have hlocked : ∀ e ≠ k, Function.update s.lockedPreferences k true e = s.lockedPreferences e := fun e he =>
    Function.update_of_ne he _ _
  have howned : ∀ e, Function.update s.lockedPreferences k true e = true → e < k + 1 ∧
      ∃ p, IncidentPreference context.eqVars context.preferredVars e p ∧ M'.matchEq e = some p := by
    intro e he
    by_cases hek : e = k
    · exact ⟨by omega, p, hek ▸ hp, hek ▸ hk⟩
    · rw [hlocked e hek] at he
      obtain ⟨hlt, q, hq, hmatch⟩ := h.owned e he
      exact ⟨by omega, q, hq, (hkept e he).trans hmatch⟩
  refine ⟨hvalid, hall, hb, howned, fun e he q hq => ?_⟩
  rcases Nat.eq_or_lt_of_le (Nat.le_of_lt_succ he) with rfl | hlt
  · refine ⟨fun _ => ?_, fun _ => Function.update_self ..⟩
    refine ⟨M'.matchEq, hvalid.isMatching, IsMaximum.of_all fun e he => hall e (Finset.mem_range.1 he),
      hp.unique hq ▸ hk, fun e' _ q' hq' hg => ?_⟩
    obtain ⟨-, r, hr, hmatch⟩ := howned e' hg
    rw [hmatch, hr.unique hq']
  · simp only [hlocked e (by omega)]
    rw [h.granted e hlt q hq]
    exact ⟨fun hg => hg.congr fun e' he' hl => by rwa [hlocked e' (by omega)] at hl,
      fun hg => hg.congr fun e' he' hl => by rwa [hlocked e' (by omega)]⟩

theorem preservePreference_inv (hcol : ∀ e, ∀ v ∈ context.eqVars.row e, v < nVar) {k : Nat} (hk : k < nEq)
    {s : PreferenceState} (h : PreferenceInv nEq context k s) :
    ∃ s', preservePreference nVar context s k = some s' ∧ PreferenceInv nEq context (k + 1) s' := by
  have hincident : ∀ p, (context.preferred k).filter (context.eqVars.contains k ·) = some p ↔
      IncidentPreference context.eqVars context.preferredVars k p := fun p => by
    rw [Option.filter_eq_some_iff, MatchContext.preferred, Option.join_eq_some_iff]
    simp [IncidentPreference]
  have hfree : s.lockedPreferences k = false := by
    by_contra hl
    exact absurd (h.owned k (by simpa using hl)).1 (Nat.lt_irrefl k)
  unfold preservePreference
  cases hp : (context.preferred k).filter (context.eqVars.contains k ·) with
  | none =>
    refine ⟨s, rfl, h.skip h.bounded fun p hpk => ?_⟩
    rw [(hincident p).2 hpk] at hp
    cases hp
  | some p =>
    have hpk := (hincident p).1 hp
    by_cases hown : s.matching.matchEq k = some p
    · simp only [if_pos hown]
      exact ⟨_, rfl, h.grant hpk h.valid h.all h.bounded hown fun _ _ => rfl⟩
    · simp only [if_neg hown]
      obtain ⟨⟨M', visits⟩, hr, hpost⟩ := tryClaimPreferred_post h.valid hcol hk hpk.2 hfree hown h.bounded
      simp only [hr, Option.bind_eq_bind, Option.bind_some]
      cases M' with
      | none =>
        refine ⟨_, rfl, h.skip hpost.bounded fun q hq hg => ?_⟩
        obtain ⟨m, hm, hmax, hmk, hkeep⟩ := hg
        have hall := hmax.all h.valid.isMatching fun e he => h.all e (Finset.mem_range.1 he)
        refine hpost.refused rfl m hm (fun e he => hall e (Finset.mem_range.2 he)) (hpk.unique hq ▸ hmk) fun e he => ?_
        obtain ⟨hlt, r, hr', hmatch⟩ := h.owned e he
        rw [hmatch, hkeep e hlt r hr' he]
      | some M' =>
        obtain ⟨hvalid, hgrows, hclaimed, hkept⟩ := hpost.claimed M' rfl
        exact ⟨_, rfl, h.grant hpk hvalid (fun e he => (h.all e he).grows hgrows) hpost.bounded hclaimed hkept⟩

variable (context) in
theorem maximizePreservedPreferences_inv (hcol : ∀ e, ∀ v ∈ context.eqVars.row e, v < nVar)
    (hM : M.Valid context.eqVars nEq) (hall : AllMatched nEq M) :
    ∃ s, (List.range nEq).foldlM (preservePreference nVar context) ⟨M, .new, fun _ => false⟩ = some s ∧
      PreferenceInv nEq context nEq s := by
  obtain ⟨s, hs, hinv⟩ := foldlM_spec (l := List.range nEq)
    (fun pre (s : PreferenceState) => PreferenceInv nEq context pre.length s)
    (fun pre eq post s hl hs => by
      obtain ⟨heq, hlt⟩ : eq = pre.length ∧ pre.length < nEq := by
        have hlen := congrArg List.length hl
        have hget := congrArg (·[pre.length]?) hl
        simp only [List.length_range, List.length_append, List.length_cons] at hlen
        rw [List.getElem?_append_right (Nat.le_refl _), Nat.sub_self, List.getElem?_cons_zero,
          List.getElem?_range (by omega)] at hget
        exact ⟨(Option.some.inj hget).symm, by omega⟩
      subst heq
      rw [List.length_append, List.length_singleton]
      exact preservePreference_inv hcol hlt hs)
    (s := ⟨M, .new, fun _ => false⟩)
    ⟨hM, hall, ⟨fun _ => Nat.le_refl 0, fun _ => Nat.le_refl 0⟩, fun e he => by simp at he, fun e he => by simp at he⟩
  rw [List.length_range] at hinv
  exact ⟨s, hs, hinv⟩

/-- An equation with an incident preference owns it exactly when a maximum matching gives it that
unknown and every earlier equation the preference it was granted. -/
theorem maximumMatchingWithStructured_preferences {nEq nVar : Nat} {rows : IncidenceRows}
    (preferredVars : List (Option Nat)) (families : List StructuredMatchingFamily)
    (hcol : ∀ e, ∀ v ∈ rows.row e, v < nVar)
    (hall : ∃ m, IsMatching (fun e v => v ∈ rows.row e) m ∧ ∀ e < nEq, ∃ v, m e = some v) :
    ∃ matchEq matchVar, maximumMatchingWithStructured nEq nVar rows preferredVars families = some (matchEq, matchVar) ∧
      ∀ e < nEq, ∀ p, IncidentPreference rows preferredVars e p →
        (matchEq[e]? = some (some p) ↔
          Grantable rows nEq preferredVars
            (fun e' => ∃ q, IncidentPreference rows preferredVars e' q ∧ matchEq[e']? = some (some q)) e p) := by
  obtain ⟨M, hM, hmax, hrun⟩ := kuhnMatching_spec nEq nVar rows preferredVars families hcol
  obtain ⟨m, hm, hmall⟩ := hall
  have hMall : AllMatched nEq M := fun e he =>
    hmax.all hm (fun e he => hmall e (Finset.mem_range.1 he)) e (Finset.mem_range.2 he)
  obtain ⟨s, hs, hinv⟩ := maximizePreservedPreferences_inv ⟨rows, preferredVars⟩ hcol hM hMall
  refine ⟨(List.range nEq).map s.matching.matchEq, (List.range nVar).map s.matching.matchVar, ?_, ?_⟩
  · rw [hrun, maximizePreservedPreferences, hs]
    rfl
  have hget : ∀ e p : Nat, ((List.range nEq).map s.matching.matchEq)[e]? = some (some p) ↔
      s.matching.matchEq e = some p := fun e p => by
    rw [← hinv.valid.getElem?_matchEq e, Option.join_eq_some_iff]
  simp only [hget]
  -- an equation owns its preference in the end exactly when it is locked
  have howns : ∀ e < nEq, ∀ p, IncidentPreference rows preferredVars e p →
      (s.matching.matchEq e = some p ↔ s.lockedPreferences e = true) := by
    intro e he p hp
    refine ⟨fun hown => (hinv.granted e he p hp).2 (hinv.grantable hown), fun hl => ?_⟩
    obtain ⟨-, q, hq, hmatch⟩ := hinv.owned e hl
    rw [hmatch, hq.unique hp]
  intro e he p hp
  rw [howns e he p hp, hinv.granted e he p hp]
  refine ⟨fun hg => hg.congr fun e' he' hown => ?_, fun hg => hg.congr fun e' he' hl => ?_⟩
  · obtain ⟨q, hq, hmatch⟩ := hown
    exact (howns e' (by omega) q hq).1 hmatch
  · obtain ⟨-, q, hq, hmatch⟩ := hinv.owned e' hl
    exact ⟨q, hq, hmatch⟩

end

/-- Three equations over three unknowns, all of which prefer unknown `1`. -/
theorem preferences_contested :
    let rows : IncidenceRows := ⟨[[0, 1], [0, 1], [1, 2]], by decide⟩
    ∃ matchEq matchVar, maximumMatchingWithStructured 3 3 rows [some 1, some 1, some 1] [] = some (matchEq, matchVar) ∧
      ∀ e < 3, ∀ p, IncidentPreference rows [some 1, some 1, some 1] e p →
        (matchEq[e]? = some (some p) ↔
          Grantable rows 3 [some 1, some 1, some 1]
            (fun e' => ∃ q, IncidentPreference rows [some 1, some 1, some 1] e' q ∧ matchEq[e']? = some (some q))
            e p) := by
  intro rows
  have hsmall : ∀ e < 3, ∀ v ∈ rows.row e, v < 3 := by decide
  refine maximumMatchingWithStructured_preferences _ _ (fun e v hv => ?_)
    ⟨fun e => if e < 3 then some e else none, ⟨fun e v h => ?_, fun e e' v h h' => ?_⟩, fun e he => ⟨e, if_pos he⟩⟩
  · rcases Nat.lt_or_ge e 3 with he | he
    · exact hsmall e he v hv
    · rw [IncidenceRows.row_eq_nil (by simpa [IncidenceRows.len, rows] using he)] at hv
      cases hv
  · have hdiagonal : ∀ e < 3, e ∈ rows.row e := by decide
    obtain ⟨he, rfl⟩ : e < 3 ∧ e = v := by simpa using h
    exact hdiagonal e he
  · obtain ⟨-, rfl⟩ : e < 3 ∧ e = v := by simpa using h
    obtain ⟨-, rfl⟩ : e' < 3 ∧ e' = e := by simpa using h'
    rfl

end Rumoca.Structural
