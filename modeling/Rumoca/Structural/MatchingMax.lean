import Rumoca.Structural.MatchingRelocation
/-!
# The matching is maximum

Seeding leaves a valid matching in which every row of a fully seeded range is
matched, so the equations the searches visit and those already matched are
all of them. After the searches every unmatched equation is in one set that
owns its unknowns, which certifies a maximum; the second pass unmatches no
equation.
-/

namespace Rumoca.Structural

open Rumoca.Lib Matching

section
variable {rows : IncidenceRows} {nEq nVar : Nat} {M : Matching}

/-! ## Seeding -/

theorem DomainOdometer.candidate_equation {odometer : DomainOdometer} {family : StructuredMatchingFamily}
    {point position equation unknown : Nat}
    (h : odometer.candidate family point position = some (equation, unknown)) :
    equation = family.firstEquationIndex + (point * family.equationsPerPoint + position) := by
  simp only [candidate, StructuredMatchingFamily.candidateEquation] at h
  split at h
  · cases h
  · simp only [Option.bind_eq_bind, Option.bind_eq_some_iff, Option.pure_def, Option.some.injEq,
      Prod.mk.injEq, checkedUsize_eq_some] at h
    obtain ⟨_, ⟨_, ⟨rfl, _⟩, _, ⟨rfl, _⟩, rfl, _⟩, _, _, _, _, _, _, _, _, _, _, rfl, _⟩ := h
    omega

/-- `row` has a match. -/
def Matching.Matches (M : Matching) (row : Nat) : Prop := ∃ v, M.matchEq row = some v

theorem Matching.Matches.grows {M' : Matching} {row : Nat} (h : M.Matches row) (hg : M.Grows M') : M'.Matches row := by
  obtain ⟨v, hv⟩ := h
  exact hg row v hv

theorem seedStructuredCandidate_spec (nVar : Nat) (hM : M.Valid rows nEq) (candidate : Option (Nat × Nat)) :
    (seedStructuredCandidate nEq nVar rows M candidate).1.Valid rows nEq ∧
      M.Grows (seedStructuredCandidate nEq nVar rows M candidate).1 ∧
      ((seedStructuredCandidate nEq nVar rows M candidate).2 = true →
        ∃ e v, candidate = some (e, v) ∧ (seedStructuredCandidate nEq nVar rows M candidate).1.Matches e) := by
  unfold seedStructuredCandidate
  split
  · exact ⟨hM, .refl M, by simp⟩
  · rename_i equation var
    split
    · exact ⟨hM, .refl M, by simp⟩
    split
    · exact ⟨hM, .refl M, by simp⟩
    split
    · exact ⟨hM, .refl M, by simp⟩
    · rename_i hlt hfree hrow
      rw [not_or] at hlt hfree
      have hmv : M.matchVar var = none := by simpa using hfree.2
      have hrow : var ∈ rows.row equation := by simpa using hrow
      have hvalid := (hM.pending hmv).pair_last hrow (by omega) (by simpa using hfree.1)
      exact ⟨hvalid, M.grows_pair _ _, fun _ => ⟨equation, var, rfl, var, pair_matchEq.2 (.inl ⟨rfl, rfl⟩)⟩⟩

theorem seedPoint_spec (nVar : Nat) (family : StructuredMatchingFamily) (s : Matching × DomainOdometer × Bool) (point : Nat)
    (hs : s.1.Valid rows nEq) :
    (seedPoint nEq nVar rows family s point).1.Valid rows nEq ∧
      s.1.Grows (seedPoint nEq nVar rows family s point).1 ∧
      ((seedPoint nEq nVar rows family s point).2.2 = true → s.2.2 = true ∧
        ∀ position < family.equationsPerPoint, (seedPoint nEq nVar rows family s point).1.Matches
          (family.firstEquationIndex + (point * family.equationsPerPoint + position))) := by
  obtain ⟨M, odometer, fullySeeded⟩ := s
  have hfold := foldl_inv (l := List.range family.equationsPerPoint)
    (fun pre (r : Matching × Bool) => r.1.Valid rows nEq ∧ M.Grows r.1 ∧ (r.2 = true → fullySeeded = true ∧
      ∀ position ∈ pre, r.1.Matches (family.firstEquationIndex + (point * family.equationsPerPoint + position))))
    (f := fun r position =>
      ((seedStructuredCandidate nEq nVar rows r.1 (odometer.candidate family point position)).1,
        r.2 && (seedStructuredCandidate nEq nVar rows r.1 (odometer.candidate family point position)).2))
    (fun pre position post r _ hr => by
      obtain ⟨hvalid, hgrows, hseed⟩ := seedStructuredCandidate_spec nVar hr.1
        (odometer.candidate family point position)
      refine ⟨hvalid, hr.2.1.trans hgrows, fun hflag => ?_⟩
      rw [Bool.and_eq_true] at hflag
      obtain ⟨hfull, hpre⟩ := hr.2.2 hflag.1
      refine ⟨hfull, fun p hp => ?_⟩
      rcases List.mem_append.1 hp with hp | hp
      · exact (hpre p hp).grows hgrows
      · obtain rfl := List.mem_singleton.1 hp
        obtain ⟨e, v, hc, hm⟩ := hseed hflag.2
        rw [← DomainOdometer.candidate_equation hc]
        exact hm) (s := (M, fullySeeded)) ⟨hs, .refl M, fun h => ⟨h, by simp⟩⟩
  exact ⟨hfold.1, hfold.2.1, fun h => ⟨(hfold.2.2 h).1, fun position hp =>
    (hfold.2.2 h).2 position (List.mem_range.2 hp)⟩⟩

theorem seedOneFamily_spec (nVar : Nat) (hM : M.Valid rows nEq) (family : StructuredMatchingFamily) :
    (seedOneFamily nEq nVar rows M family).1.Valid rows nEq ∧ M.Grows (seedOneFamily nEq nVar rows M family).1 ∧
      ((seedOneFamily nEq nVar rows M family).2 = true → ∀ range ∈ family.rowRange, ∀ row, range.1 ≤ row →
        row < range.2 → (seedOneFamily nEq nVar rows M family).1.Matches row) := by
  have hfold := foldl_inv (l := List.range family.pointCount) (f := seedPoint nEq nVar rows family)
    (fun pre r => r.1.Valid rows nEq ∧ M.Grows r.1 ∧ (r.2.2 = true → ∀ point ∈ pre,
      ∀ position < family.equationsPerPoint,
        r.1.Matches (family.firstEquationIndex + (point * family.equationsPerPoint + position))))
    (fun pre point post r _ hr => by
      obtain ⟨hvalid, hgrows, hseed⟩ := seedPoint_spec nVar family r point hr.1
      refine ⟨hvalid, hr.2.1.trans hgrows, fun hflag p hp position hpos => ?_⟩
      rcases List.mem_append.1 hp with hp | hp
      · exact (hr.2.2 (hseed hflag).1 p hp position hpos).grows hgrows
      · obtain rfl := List.mem_singleton.1 hp
        exact (hseed hflag).2 position hpos)
    (s := (M, DomainOdometer.new family.extents, true)) ⟨hM, .refl M, by simp⟩
  refine ⟨hfold.1, hfold.2.1, fun hflag range hrange row hlo hhi => ?_⟩
  obtain ⟨hstart, hstop⟩ := StructuredMatchingFamily.rowRange_eq_some hrange
  obtain ⟨point, hpoint, position, hpos, rfl⟩ := StructuredMatchingFamily.exists_point (hstart ▸ hlo) (hstop ▸ hhi)
  exact hfold.2.2 hflag point (List.mem_range.2 hpoint) position hpos

theorem seedStructuredFamilyMatches_spec (rows : IncidenceRows) (nEq nVar : Nat)
    (families : List StructuredMatchingFamily) :
    (seedStructuredFamilyMatches nEq nVar rows families).1.Valid rows nEq ∧
      ∀ range ∈ (seedStructuredFamilyMatches nEq nVar rows families).2, range.1 ≤ range.2 ∧
        ∀ row, range.1 ≤ row → row < range.2 →
          (seedStructuredFamilyMatches nEq nVar rows families).1.Matches row := by
  have hfold := foldl_inv (l := families)
    (f := fun r family => ((seedOneFamily nEq nVar rows r.1 family).1,
      if (seedOneFamily nEq nVar rows r.1 family).2 then r.2 ++ family.rowRange.toList else r.2))
    (fun _ (r : Matching × List (Nat × Nat)) => r.1.Valid rows nEq ∧
      ∀ range ∈ r.2, range.1 ≤ range.2 ∧ ∀ row, range.1 ≤ row → row < range.2 → r.1.Matches row)
    (fun pre family post r _ hr => by
      obtain ⟨hvalid, hgrows, hseed⟩ := seedOneFamily_spec nVar hr.1 family
      refine ⟨hvalid, fun range hrange => ?_⟩
      have hold : range ∈ r.2 → range.1 ≤ range.2 ∧ ∀ row, range.1 ≤ row → row < range.2 →
          (seedOneFamily nEq nVar rows r.1 family).1.Matches row := fun h =>
        ⟨(hr.2 range h).1, fun row hlo hhi => ((hr.2 range h).2 row hlo hhi).grows hgrows⟩
      simp only at hrange
      split at hrange
      · rename_i hflag
        rcases List.mem_append.1 hrange with hrange | hrange
        · exact hold hrange
        · have hrange : range ∈ family.rowRange := by simpa using hrange
          obtain ⟨hstart, hstop⟩ := StructuredMatchingFamily.rowRange_eq_some hrange
          exact ⟨by omega, hseed hflag range hrange⟩
      · exact hold hrange) (s := (Matching.empty, [])) ⟨valid_empty rows nEq, by simp⟩
  refine ⟨hfold.1, fun range hrange => hfold.2 range ?_⟩
  simpa [seedStructuredFamilyMatches] using hrange

/-! ## The order of the searches -/

theorem mem_unseededRows (nEq : Nat) (ranges : List (Nat × Nat)) (row eq : Nat) (hlo : row ≤ eq) (hlt : eq < nEq) :
    eq ∈ unseededRows nEq ranges row ∨ ∃ range ∈ ranges, range.1 ≤ eq ∧ eq < range.2 := by
  induction ranges generalizing row with
  | nil => exact .inl (by simp [unseededRows]; omega)
  | cons range ranges ih =>
    obtain ⟨start, stop⟩ := range
    simp only [unseededRows]
    by_cases hin : start ≤ eq ∧ eq < stop
    · exact .inr ⟨(start, stop), by simp, hin⟩
    by_cases hbefore : eq < start
    · left
      have hmem : eq ∈ if start > row then List.range' row (min start nEq - row) else [] := by
        rw [if_pos (by omega)]
        simp only [List.mem_range'_1]
        omega
      split
      · exact hmem
      · exact List.mem_append_left _ hmem
    · rw [if_neg (by omega)]
      rcases ih (max row stop) (by omega) with h | ⟨range, hr, h⟩
      · exact .inl (List.mem_append_right _ h)
      · exact .inr ⟨range, List.mem_cons_of_mem _ hr, h⟩

/-- The rows left to search ascend, from `row` on and below `nEq`. -/
theorem unseededRows_sorted (nEq : Nat) {ranges : List (Nat × Nat)} (row : Nat)
    (hranges : ∀ range ∈ ranges, range.1 ≤ range.2) :
    (unseededRows nEq ranges row).Pairwise (· < ·) ∧ ∀ eq ∈ unseededRows nEq ranges row, row ≤ eq ∧ eq < nEq := by
  induction ranges generalizing row with
  | nil =>
    refine ⟨List.pairwise_lt_range' .., fun eq heq => ?_⟩
    simp only [unseededRows, List.mem_range'_1] at heq
    omega
  | cons range ranges ih =>
    obtain ⟨start, stop⟩ := range
    simp only [unseededRows]
    have hb : (if start > row then List.range' row (min start nEq - row) else []).Pairwise (· < ·) ∧
        ∀ eq ∈ (if start > row then List.range' row (min start nEq - row) else []),
          row ≤ eq ∧ eq < start ∧ eq < nEq := by
      split
      · refine ⟨List.pairwise_lt_range' .., fun eq heq => ?_⟩
        simp only [List.mem_range'_1] at heq
        omega
      · exact ⟨.nil, by simp⟩
    split
    · exact ⟨hb.1, fun eq heq => ⟨(hb.2 eq heq).1, (hb.2 eq heq).2.2⟩⟩
    · obtain ⟨hs, hm⟩ := ih (max row stop) fun range hr => hranges range (by simp [hr])
      have hle : start ≤ stop := hranges (start, stop) (by simp)
      refine ⟨List.pairwise_append.2 ⟨hb.1, hs, fun a ha b hbm => ?_⟩, fun eq heq => ?_⟩
      · have := (hb.2 a ha).2.1
        have := (hm b hbm).1
        omega
      · rcases List.mem_append.1 heq with heq | heq
        · exact ⟨(hb.2 eq heq).1, (hb.2 eq heq).2.2⟩
        · have := hm eq heq
          omega

/-- The searches start from distinct unmatched equations, and from every one outside the seeded ranges. -/
theorem kuhnEquationOrder_spec (nEq : Nat) (M : Matching) (context : MatchContext) {ranges : List (Nat × Nat)}
    (hranges : ∀ range ∈ ranges, range.1 ≤ range.2 ∧ ∀ row, range.1 ≤ row → row < range.2 → M.Matches row) :
    (kuhnEquationOrder nEq M context ranges).Nodup ∧
      ∀ eq, eq ∈ kuhnEquationOrder nEq M context ranges ↔ eq < nEq ∧ M.matchEq eq = none := by
  obtain ⟨hs, hm⟩ := unseededRows_sorted nEq 0 fun range hr => (hranges range hr).1
  have hmem : ∀ eq, eq ∈ (unseededRows nEq ranges 0).filter (fun eq => (M.matchEq eq).isNone) ↔
      eq < nEq ∧ M.matchEq eq = none := by
    intro eq
    rw [List.mem_filter, Option.isNone_iff_eq_none]
    refine ⟨fun h => ⟨(hm eq h.1).2, h.2⟩, fun h => ⟨?_, h.2⟩⟩
    rcases mem_unseededRows nEq ranges 0 eq (Nat.zero_le _) h.1 with hu | ⟨range, hr, hlo, hhi⟩
    · exact hu
    · obtain ⟨v, hv⟩ := (hranges range hr).2 eq hlo hhi
      rw [h.2] at hv
      cases hv
  have hnd := (hs.imp Nat.ne_of_lt).filter fun eq => (M.matchEq eq).isNone
  refine ⟨List.nodup_append.2 ⟨hnd.filter _, hnd.filter _, fun a ha b hb hab => ?_⟩, fun eq => ?_⟩
  · have ha' := (List.mem_filter.1 ha).2
    have hb' := (List.mem_filter.1 hb).2
    rw [hab] at ha'
    cases hp : context.preferred b <;> simp [hp] at ha' hb'
  · rw [← hmem]
    simp only [kuhnEquationOrder, List.mem_append, List.mem_filter]
    cases context.preferred eq <;> simp

/-! ## The matching -/

theorem AugmentScratch.beginSearch_fresh {scratch : AugmentScratch}
    (h : ∀ v, scratch.visitedEpoch v ≤ scratch.epoch) (v : Nat) :
    scratch.beginSearch.visitedEpoch v < scratch.beginSearch.epoch := by
  unfold beginSearch
  split
  · exact Nat.zero_lt_one
  · exact Nat.lt_succ_of_le (h v)

theorem kuhnSearches_spec {context : MatchContext} (hcol : ∀ e, ∀ v ∈ context.eqVars.row e, v < nVar)
    (hM : M.Valid context.eqVars nEq) {order : List Nat} (hnd : order.Nodup)
    (horder : ∀ eq, eq ∈ order ↔ eq < nEq ∧ M.matchEq eq = none) :
    ∃ r, order.foldlM (fun s eq => augment nVar context (s.1, s.2.beginSearch) eq) (M, AugmentScratch.new) = some r ∧
      r.1.Valid context.eqVars nEq ∧
        ∃ Z : Set Nat, Owned context.eqVars r.1 Z ∧ ∀ eq < nEq, eq ∈ Z ∨ r.1.Matches eq := by
  obtain ⟨r, hr, hvalid, -, -, hgrows, Z, hZ, hsettled⟩ := foldlM_spec (l := order)
    (f := fun s eq => augment nVar context (s.1, s.2.beginSearch) eq)
    (fun pre (s : Matching × AugmentScratch) => s.1.Valid context.eqVars nEq ∧
      (∀ v, s.2.visitedEpoch v ≤ s.2.epoch) ∧ (∀ eq ∈ order, eq ∉ pre → s.1.matchEq eq = none) ∧ M.Grows s.1 ∧
        ∃ Z : Set Nat, Owned context.eqVars s.1 Z ∧ ∀ eq ∈ pre, eq ∈ Z ∨ s.1.Matches eq)
    (fun pre eq post s hl hs => by
      obtain ⟨hvalid, hle, hleft, hgrows, Z, hZ, hsettled⟩ := hs
      have hmem : eq ∈ order := hl ▸ by simp
      have hnot : eq ∉ pre := by
        rw [hl] at hnd
        exact fun h => (List.nodup_append.1 hnd).2.2 eq h eq (by simp) rfl
      obtain ⟨r, hr, hv, hg, hle', hpost⟩ := augment_spec hvalid hcol (hleft eq hmem hnot) ((horder eq).1 hmem).1
        (AugmentScratch.beginSearch_fresh hle)
      refine ⟨r, hr, hv, hle', fun e he hpre => ?_, hgrows.trans hg, ?_⟩
      · rw [List.mem_append, not_or, List.mem_singleton] at hpre
        rcases hpost with ⟨-, hothers, -⟩ | ⟨hsame, -⟩
        · exact hothers e hpre.2 (hleft e he hpre.1)
        · rw [hsame]
          exact hleft e he hpre.1
      · rcases hpost with ⟨hst, -, hkeep⟩ | ⟨hsame, Z', heq, hZ'⟩
        · refine ⟨Z, hkeep Z hZ, fun e he => ?_⟩
          rcases List.mem_append.1 he with he | he
          · exact (hsettled e he).imp id fun h => h.grows hg
          · exact .inr (List.mem_singleton.1 he ▸ hst)
        · -- a failed search adds its owning set
          rw [hsame]
          refine ⟨Z ∪ Z', fun e he b hb => ?_, fun e he => ?_⟩
          · rcases he with he | he
            · obtain ⟨o, ho, hob⟩ := hZ e he b hb
              exact ⟨o, .inl ho, hob⟩
            · obtain ⟨o, ho, hob⟩ := hZ' e he b hb
              exact ⟨o, .inr ho, hob⟩
          · rcases List.mem_append.1 he with he | he
            · exact (hsettled e he).imp .inl id
            · exact .inl (.inr (List.mem_singleton.1 he ▸ heq)))
    (s := (M, AugmentScratch.new))
    ⟨hM, fun _ => Nat.le_refl 0, fun eq he _ => ((horder eq).1 he).2, .refl M, ∅, fun e he => he.elim, by simp⟩
  refine ⟨r, hr, hvalid, Z, hZ, fun eq hlt => ?_⟩
  cases hm : M.matchEq eq with
  | none => exact hsettled eq ((horder eq).2 ⟨hlt, hm⟩)
  | some v => exact .inr (hgrows eq v hm)

theorem kuhnMatching_spec (nEq nVar : Nat) (rows : IncidenceRows) (preferredVars : List (Option Nat))
    (families : List StructuredMatchingFamily) (hcol : ∀ e, ∀ v ∈ rows.row e, v < nVar) :
    ∃ M, M.Valid rows nEq ∧ IsMaximum (fun e v => v ∈ rows.row e) (Finset.range nEq) M.matchEq ∧
      maximumMatchingWithStructured nEq nVar rows preferredVars families =
        (maximizePreservedPreferences nEq nVar ⟨rows, preferredVars⟩ M).map fun M' =>
          ((List.range nEq).map M'.matchEq, (List.range nVar).map M'.matchVar) := by
  obtain ⟨hM, hranges⟩ := seedStructuredFamilyMatches_spec rows nEq nVar families
  set seeding := seedStructuredFamilyMatches nEq nVar rows families with hseeding
  let context : MatchContext := ⟨rows, preferredVars⟩
  have hcontext : ∀ e, ∀ v ∈ context.eqVars.row e, v < nVar := hcol
  obtain ⟨hnd, horder⟩ := kuhnEquationOrder_spec nEq seeding.1 context hranges
  obtain ⟨⟨M, scratch⟩, hr, hM, Z, hZ, hsettled⟩ := kuhnSearches_spec hcontext hM hnd horder
  refine ⟨M, hM, ?_, ?_⟩
  · exact maximum_of_closed hZ (fun e v h => Finset.mem_range.2 (hM.edge e v h).2) fun e he hnot =>
      (hsettled e (Finset.mem_range.1 he)).resolve_left hnot
  · simp only [maximumMatchingWithStructured, ← hseeding]
    rw [hr]
    simp only [Option.bind_eq_bind, Option.bind_some]
    cases maximizePreservedPreferences nEq nVar ⟨rows, preferredVars⟩ M with
    | none => rfl
    | some M' => rfl

/-- The source's answer: two inverse lists that use only edges, of as many
equations as any matching of the relation. -/
theorem maximumMatchingWithStructured_maximum (nEq nVar : Nat) (rows : IncidenceRows)
    (preferredVars : List (Option Nat)) (families : List StructuredMatchingFamily)
    (hcol : ∀ e, ∀ v ∈ rows.row e, v < nVar) :
    ∃ matchEq matchVar, maximumMatchingWithStructured nEq nVar rows preferredVars families = some (matchEq, matchVar) ∧
      matchEq.length = nEq ∧ matchVar.length = nVar ∧
      (∀ e v : Nat, matchEq[e]? = some (some v) ↔ matchVar[v]? = some (some e)) ∧
      (∀ e v : Nat, matchEq[e]? = some (some v) → v ∈ rows.row e) ∧
      IsMaximum (fun e v => v ∈ rows.row e) (Finset.range nEq) fun e => (matchEq[e]?).join := by
  obtain ⟨M₁, hM₁, hmax₁, hrun⟩ := kuhnMatching_spec nEq nVar rows preferredVars families hcol
  obtain ⟨M₂, hM₂, hvalid, hgrows⟩ := maximizePreservedPreferences_spec ⟨rows, preferredVars⟩ hcol hM₁
  have heq : ∀ e v : Nat, ((List.range nEq).map M₂.matchEq)[e]? = some (some v) ↔ M₂.matchEq e = some v := by
    intro e v
    rw [← hvalid.getElem?_matchEq e, Option.join_eq_some_iff]
  have hvar : ∀ e v : Nat, ((List.range nVar).map M₂.matchVar)[v]? = some (some e) ↔ M₂.matchVar v = some e := by
    intro e v
    by_cases hv : v < nVar
    · simp [hv]
    · have hnone : M₂.matchVar v ≠ some e := fun h =>
        hv (hcol e v (hvalid.edge e v (hvalid.eq_of_var e v h)).1)
      simp [hv, hnone]
  refine ⟨(List.range nEq).map M₂.matchEq, (List.range nVar).map M₂.matchVar, ?_, by simp, by simp,
    fun e v => ?_, fun e v h => (hvalid.edge e v ((heq e v).1 h)).1, ?_⟩
  · rw [hrun, hM₂]
    rfl
  · rw [heq, hvar]
    exact ⟨hvalid.var_of_eq e v, hvalid.eq_of_var e v⟩
  · simp only [hvalid.getElem?_matchEq]
    exact hmax₁.of_subset fun e _ v h => hgrows e v h

end

/-- Four equations; the seeded family and a preference leave one relocation to make. -/
theorem maximumMatching_four :
    let rows : IncidenceRows := ⟨[[0, 1], [0], [1, 2], [2, 3]], by decide⟩
    ∃ matchEq matchVar, maximumMatchingWithStructured 4 4 rows [some 1, none, some 2, some 2]
        [⟨0, 0, 1, 2, [2], [1], [0], [[1]]⟩] = some (matchEq, matchVar) ∧
      matchEq.length = 4 ∧ matchVar.length = 4 ∧
      (∀ e v : Nat, matchEq[e]? = some (some v) ↔ matchVar[v]? = some (some e)) ∧
      (∀ e v : Nat, matchEq[e]? = some (some v) → v ∈ rows.row e) ∧
      IsMaximum (fun e v => v ∈ rows.row e) (Finset.range 4) fun e => (matchEq[e]?).join := by
  refine maximumMatchingWithStructured_maximum 4 4 _ _ _ fun e v hv => ?_
  rcases Nat.lt_or_ge e 4 with he | he
  · have hsmall : ∀ e < 4, ∀ v ∈ IncidenceRows.row ⟨[[0, 1], [0], [1, 2], [2, 3]], by decide⟩ e, v < 4 := by decide
    exact hsmall e he v hv
  · rw [IncidenceRows.row_eq_nil (by simpa [IncidenceRows.len] using he)] at hv
    cases hv

end Rumoca.Structural
