import Rumoca.Structural.Blt
import Rumoca.Structural.TarjanOrder
/-!
# The blocks are a solve order

For a perfect matching, `build_blt_blocks` returns blocks that hold every
row once, whose loops are components of the dependency graph, and in which a
row's unknowns are solved in its own block or earlier. A compact family is
sound to remove because its rows are sinks of the graph; the other rows keep
their components by `IsComponent.map`.
-/

namespace Rumoca.Structural

open Rumoca.Lib

/-- Every equation is matched to an unknown it references, every unknown is matched. -/
structure PerfectMatching (incidence : Incidence) (matchEq matchVar : List (Option Nat)) : Prop where
  eq_matched : ∀ eq < incidence.nEq, ∃ unknown ∈ incidence.eqUnknowns.row eq,
    matchEq[eq]? = some (some unknown) ∧ matchVar[unknown]? = some (some eq)
  var_matched : ∀ unknown < incidence.nVar, ∃ eq < incidence.nEq,
    matchVar[unknown]? = some (some eq) ∧ matchEq[eq]? = some (some unknown)

/-- A solve order of the rows of `incidence`. -/
structure SolveOrder (incidence : Incidence) (matchVar : List (Option Nat)) (adj : List (List Nat))
    (blocks : List BltBlock) : Prop where
  once : ∀ row, (blocks.flatMap BltBlock.rows).count row = if row < incidence.nEq then 1 else 0
  loops : ∀ equations unknowns tearing, .AlgebraicLoop equations unknowns tearing ∈ blocks →
    IsComponent (Edge adj) (equations.map (·.index))
  solved : ∀ (i : Nat) (block : BltBlock), blocks[i]? = some block → ∀ row ∈ block.rows,
    ∀ unknown ∈ incidence.eqUnknowns.row row, ∃ j ≤ i, ∃ earlier : BltBlock, blocks[j]? = some earlier ∧
      ∃ owner ∈ earlier.rows, matchVar[unknown]? = some (some owner)

section
variable {incidence : Incidence} {matchEq matchVar : List (Option Nat)}

def SelfContained (incidence : Incidence) (matchEq : List (Option Nat)) (row : Nat) : Prop :=
  row < incidence.nEq ∧ ∃ unknown, incidence.eqUnknowns.row row = [unknown] ∧ matchEq[row]? = some (some unknown)

/-! ## Compact families -/

theorem rowIsSelfContained_sound {family : StructuredMatchingFamily} {point position unknown : Nat}
    (h : rowIsSelfContained family incidence matchEq point position = some unknown) :
    let row := family.firstEquationIndex + (point * family.equationsPerPoint + position)
    incidence.eqUnknowns.row row = [unknown] ∧ matchEq[row]? = some (some unknown) := by
  simp only [rowIsSelfContained, Option.bind_eq_bind, Option.bind_eq_some_iff, Prod.exists] at h
  obtain ⟨row, u, hc, h⟩ := h
  split at h
  · rename_i hrow
    obtain rfl : u = unknown := by simpa using h
    obtain rfl := StructuredMatchingFamily.candidate_equation hc
    exact ⟨hrow.1, by simpa [Option.join_eq_some_iff] using hrow.2⟩
  · cases h

theorem familyIsSelfContained_sound {family : StructuredMatchingFamily} {declarations : Option (List UnknownId)}
    {start stop : Nat} (hr : family.rowRange = some (start, stop))
    (h : familyIsSelfContained family incidence matchEq = some declarations) :
    ∀ row ∈ List.range' start (stop - start), SelfContained incidence matchEq row := by
  obtain ⟨rfl, rfl⟩ := StructuredMatchingFamily.rowRange_eq_some hr
  simp only [familyIsSelfContained, hr, Option.bind_eq_bind, Option.bind_some] at h
  split at h
  · cases h
  rename_i hsmall
  have hscan := foldlM_inv (fun cells _ => ∀ cell ∈ cells,
      ∃ unknown, rowIsSelfContained family incidence matchEq cell.1 cell.2 = some unknown)
    (fun pre cell post s s' _ hpre hcell => by
      simp only [checkRow, Option.bind_eq_bind, Option.bind_eq_some_iff] at hcell
      obtain ⟨unknown, hu, -⟩ := hcell
      intro c hc
      rcases List.mem_append.1 hc with hc | hc
      · exact hpre c hc
      · exact List.mem_singleton.1 hc ▸ ⟨unknown, hu⟩) (by simp) h
  intro row hrow
  simp only [List.mem_range'_1] at hrow
  obtain ⟨point, hpt, position, hpos, rfl⟩ := StructuredMatchingFamily.exists_point hrow.1 (by omega)
  obtain ⟨unknown, hu⟩ := hscan (point, position) (by simp [hpt, hpos])
  exact ⟨by omega, unknown, rowIsSelfContained_sound hu⟩

theorem clearFlags (rows : List Nat) (flags : List Bool) (row : Nat) :
    (rows.foldl (fun flags row => flags.set row false) flags)[row]? =
      if row ∈ rows then flags[row]?.map fun _ => false else flags[row]? := by
  induction rows generalizing flags with
  | nil => simp
  | cons r rows ih =>
    rw [List.foldl_cons, ih]
    by_cases hr : row = r
    · subst hr
      by_cases hlt : row < flags.length <;> simp [hlt]
    · simp [List.mem_cons, hr, List.getElem?_set_ne (Ne.symm hr)]

theorem claimRows_eq_some {flags flags' : List Bool} {rows : List Nat} (h : claimRows flags rows = some flags') :
    (∀ row ∈ rows, flags[row]? = some true) ∧
      ∀ row, flags'[row]? = if row ∈ rows then flags[row]?.map fun _ => false else flags[row]? := by
  simp only [claimRows] at h
  split at h
  · cases h
  · rename_i hany
    obtain rfl := Option.some.inj h
    exact ⟨by simpa using hany, clearFlags rows flags⟩

/-- The flags are down exactly at the rows of the compact blocks. -/
structure SplitInv (incidence : Incidence) (matchEq : List (Option Nat)) (split : Split) : Prop where
  selfContained : ∀ row ∈ split.1.flatMap StructuredScalarBlock.rows, SelfContained incidence matchEq row
  nodup : (split.1.flatMap StructuredScalarBlock.rows).Nodup
  flags : ∀ row, (split.2.getD (List.replicate incidence.nEq true))[row]? =
    if row < incidence.nEq then some (decide (row ∉ split.1.flatMap StructuredScalarBlock.rows)) else none
  kept : split.1 ≠ [] → split.2 ≠ none

theorem splitInv_nil (incidence : Incidence) (matchEq : List (Option Nat)) : SplitInv incidence matchEq ([], none) :=
  ⟨by simp, by simp, fun row => by simp [List.getElem?_replicate], by simp⟩

theorem structuredScalarBlock_total (view : Option DaeView) (family : StructuredMatchingFamily)
    (declarations : Option (List UnknownId)) :
    ∃ block, structuredScalarBlock view family incidence declarations = some block ∧ block.matching = family := by
  cases view with
  | none => exact ⟨_, rfl, rfl⟩
  | some view =>
    simp only [structuredScalarBlock, checkedSource]
    cases hs : sourceChecked view family incidence with
    | none => exact ⟨_, rfl, rfl⟩
    | some u =>
      simp only [sourceChecked, Option.bind_eq_bind, Option.bind_eq_some_iff] at hs
      obtain ⟨_, _, _, _, _, _, owner, howner, hs⟩ := hs
      cases owner with
      | Residual => cases hs
      | Structured id fam => simp [bindSource, howner]

theorem splitFamily_spec (view : Option DaeView) {split : Split} (h : SplitInv incidence matchEq split)
    (family : StructuredMatchingFamily) :
    ∃ split', splitFamily view incidence matchEq split family = some split' ∧ SplitInv incidence matchEq split' := by
  unfold splitFamily
  split
  · rename_i start stop declarations hr hf
    cases hc : claimRows (split.2.getD (List.replicate incidence.nEq true)) (List.range' start (stop - start)) with
    | none =>
      exact ⟨(split.1, some (split.2.getD (List.replicate incidence.nEq true))), by simp only [hc], h.selfContained, h.nodup, h.flags, by simp⟩
    | some flags =>
      simp only [hc]
      obtain ⟨block, hb, hm⟩ := structuredScalarBlock_total view family declarations
      obtain ⟨hfree, hflags⟩ := claimRows_eq_some hc
      have hrows : block.rows = List.range' start (stop - start) := by
        simp [StructuredScalarBlock.rows, hm, hr]
      refine ⟨_, by rw [hb]; rfl, ?_⟩
      have hnew : ∀ row ∈ block.rows, row ∉ split.1.flatMap StructuredScalarBlock.rows := by
        intro row hrow hold
        have := hfree row (hrows ▸ hrow)
        rw [h.flags] at this
        simp [hold] at this
      refine ⟨?_, ?_, fun row => ?_, by simp⟩
      · intro row hrow
        simp only [List.flatMap_append, List.flatMap_singleton, List.mem_append] at hrow
        rcases hrow with hrow | hrow
        · exact h.selfContained row hrow
        · exact familyIsSelfContained_sound hr hf row (hrows ▸ hrow)
      · simp only [List.flatMap_append, List.flatMap_singleton]
        refine List.nodup_append.2 ⟨h.nodup, hrows ▸ List.nodup_range', ?_⟩
        exact fun a ha b hb hab => hnew b hb (hab ▸ ha)
      · simp only [Option.getD_some, List.flatMap_append, List.flatMap_singleton, List.mem_append, hflags,
          h.flags, hrows]
        by_cases hrow : row ∈ List.range' start (stop - start)
        · simp only [hrow, if_true, or_true, not_true_eq_false, decide_false]
          split <;> rfl
        · simp only [hrow, if_false, or_false]
  · exact ⟨_, rfl, h⟩

theorem splitSelfContainedFamilies_spec (incidence : Incidence) (matchEq : List (Option Nat))
    (view : Option DaeView) :
    ∃ blocks keep, splitSelfContainedFamilies view incidence matchEq = some (blocks, keep) ∧
      SplitInv incidence matchEq (blocks, keep) ∧ (blocks = [] ↔ keep = none) := by
  obtain ⟨⟨blocks, keep⟩, hs, hinv⟩ := foldlM_spec (fun _ => SplitInv incidence matchEq)
    (fun _ family _ split _ h => splitFamily_spec view h family) (l := incidence.structuredMatching)
    (splitInv_nil incidence matchEq)
  simp only [splitSelfContainedFamilies, hs, Option.bind_eq_bind, Option.bind_some]
  by_cases hb : blocks = []
  · subst hb
    exact ⟨[], none, rfl, splitInv_nil incidence matchEq, by simp⟩
  · exact ⟨blocks, keep, by simp [hb], hinv, by simpa [hb] using hinv.kept hb⟩

/-! ## Condensing -/

theorem mem_keptNodes {adj : List (List Nat)} {keep : List Bool} {node : Nat} :
    node ∈ (condenseNodes adj keep).2 ↔ keep[node]? = some true := by
  simp only [condenseNodes, List.mem_filter, List.mem_range, decide_eq_true_eq, and_iff_right_iff_imp]
  exact fun h => (List.getElem?_eq_some_iff.1 h).1

theorem keptNodes_nodup (adj : List (List Nat)) (keep : List Bool) : (condenseNodes adj keep).2.Nodup :=
  List.nodup_range.filter _

theorem edge_condense {adj : List (List Nat)} {keep : List Bool} {x y : Nat} :
    Edge (condenseNodes adj keep).1 x y ↔ ∃ node target, (condenseNodes adj keep).2[x]? = some node ∧
      (condenseNodes adj keep).2[y]? = some target ∧ Edge adj node target := by
  set kept := (condenseNodes adj keep).2 with hkept
  have hlocal : ∀ target, (if keep[target]? = some true then some (kept.idxOf target) else none) = some y ↔
      kept[y]? = some target := by
    intro target
    have hmem : target ∈ kept ↔ keep[target]? = some true := mem_keptNodes
    constructor
    · intro h
      split at h
      · rename_i hm
        obtain rfl := Option.some.inj h
        exact List.getElem?_idxOf (hmem.2 hm)
      · cases h
    · intro h
      rw [if_pos (hmem.1 (List.mem_of_getElem? h))]
      obtain ⟨hlt, rfl⟩ := List.getElem?_eq_some_iff.1 h
      rw [(keptNodes_nodup adj keep).idxOf_getElem y hlt]
  have hrow : neighbors (condenseNodes adj keep).1 x = ((kept[x]?).map fun node => (neighbors adj node).filterMap
      fun target => if keep[target]? = some true then some (kept.idxOf target) else none).getD [] := by
    simp [neighbors, condenseNodes, hkept]
  unfold Edge
  rw [hrow]
  cases hx : kept[x]? with
  | none => simp
  | some node =>
    simp only [Option.map_some, Option.getD_some, List.mem_filterMap, hlocal]
    constructor
    · rintro ⟨target, ht, hy⟩
      exact ⟨node, target, rfl, hy, ht⟩
    · rintro ⟨_, target, h, hy, ht⟩
      obtain rfl := Option.some.inj h
      exact ⟨target, ht, hy⟩

/-! ## From components to blocks -/

theorem sccToBlock_spec (hm : PerfectMatching incidence matchEq matchVar) {scc : List Nat}
    (hlt : ∀ eq ∈ scc, eq < incidence.nEq) :
    ∃ block, sccToBlock incidence matchEq scc = some block ∧ block.rows = scc := by
  have href : ∀ eq ∈ scc, incidence.equationRefs[eq]? = some ⟨eq⟩ := by
    intro eq h
    simp [incidence.refs_eq, hlt eq h]
  have hunk : ∀ eq ∈ scc, ∃ unknown, matchedUnknown incidence matchEq eq = some unknown := by
    intro eq h
    obtain ⟨unknown, hu, hme, -⟩ := hm.eq_matched eq (hlt eq h)
    have hul : unknown < incidence.unknowns.length := incidence.unknowns_len ▸ incidence.columns_lt eq unknown hu
    exact ⟨some incidence.unknowns[unknown], by simp [matchedUnknown, hme, hul]⟩
  have hrefs : scc.mapM (fun eq => incidence.equationRefs[eq]?) = some (scc.map EquationRef.mk) :=
    mapM_eq_some_map href
  obtain ⟨unknowns, hunks⟩ := mapM_total hunk
  have htear : ∃ tearing, tearScc scc incidence matchEq = some tearing := by
    obtain ⟨owned, howned⟩ := mapM_total (f := fun eq => matchEq[eq]?) (l := scc) fun eq h => by
      obtain ⟨unknown, -, hme, -⟩ := hm.eq_matched eq (hlt eq h)
      exact ⟨_, hme⟩
    simp only [tearScc, howned, Option.bind_eq_bind, Option.bind_some]
    split
    · exact ⟨_, rfl⟩
    · split
      · exact ⟨_, rfl⟩
      · exact tearAlgebraicLoop_total _ _
  obtain ⟨tearing, htear⟩ := htear
  unfold sccToBlock
  split
  · rename_i eq
    obtain ⟨unknown, hu⟩ := hunk eq (by simp)
    exact ⟨_, by rw [href eq (by simp), hu]; rfl, rfl⟩
  · exact ⟨_, by rw [hrefs, hunks, htear]; rfl, by simp [BltBlock.rows, Function.comp_def]⟩

theorem edge_iff {x y : Nat} : Edge (buildDependencyGraph incidence.eqUnknowns matchVar incidence.nEq) x y ↔
    x < incidence.nEq ∧ y ≠ x ∧
      ∃ unknown ∈ incidence.eqUnknowns.row x, matchVar[unknown]? = some (some y) := by
  rw [← mem_dependencyRow]
  by_cases hx : x < incidence.nEq <;> simp [Edge, neighbors, buildDependencyGraph, hx]

theorem PerfectMatching.owner (hm : PerfectMatching incidence matchEq matchVar) {x unknown : Nat}
    (hu : unknown ∈ incidence.eqUnknowns.row x) :
    ∃ y < incidence.nEq, matchVar[unknown]? = some (some y) ∧ matchEq[y]? = some (some unknown) :=
  hm.var_matched unknown (incidence.columns_lt x unknown hu)

theorem PerfectMatching.edge_lt (hm : PerfectMatching incidence matchEq matchVar) {x y : Nat}
    (h : Edge (buildDependencyGraph incidence.eqUnknowns matchVar incidence.nEq) x y) : y < incidence.nEq := by
  obtain ⟨-, -, unknown, hu, hmv⟩ := edge_iff.1 h
  obtain ⟨z, hz, hmv', -⟩ := hm.owner hu
  obtain rfl : z = y := by simpa [hmv] using hmv'.symm
  exact hz

theorem SelfContained.sink (hm : PerfectMatching incidence matchEq matchVar) {row y : Nat}
    (h : SelfContained incidence matchEq row) :
    ¬ Edge (buildDependencyGraph incidence.eqUnknowns matchVar incidence.nEq) row y := by
  intro he
  obtain ⟨hrow, hne, unknown, hu, hmv⟩ := edge_iff.1 he
  obtain ⟨u, hu', hme⟩ := h.2
  obtain ⟨v, hv, hme', hmv'⟩ := hm.eq_matched row hrow
  have huv : unknown = v := by rw [hu'] at hu hv; simp_all
  subst huv
  exact hne (by simpa [hmv] using hmv')

theorem solveOrder_of_rows (hm : PerfectMatching incidence matchEq matchVar) {blocks : List BltBlock}
    (hnd : (blocks.map BltBlock.rows).flatten.Nodup)
    (hmem : ∀ x, x ∈ (blocks.map BltBlock.rows).flatten ↔ x < incidence.nEq)
    (hloops : ∀ equations unknowns tearing, .AlgebraicLoop equations unknowns tearing ∈ blocks →
      IsComponent (Edge (buildDependencyGraph incidence.eqUnknowns matchVar incidence.nEq))
        (equations.map (·.index)))
    (hord : Earlier (Edge (buildDependencyGraph incidence.eqUnknowns matchVar incidence.nEq))
      (blocks.map BltBlock.rows)) :
    SolveOrder incidence matchVar (buildDependencyGraph incidence.eqUnknowns matchVar incidence.nEq) blocks := by
  refine ⟨fun row => ?_, hloops, fun i block hb row hrow unknown hu => ?_⟩
  · rw [List.flatMap_def, hnd.count]
    simp only [hmem]
  · obtain ⟨owner, hlt, hmv, -⟩ := hm.owner hu
    by_cases heq : owner = row
    · exact ⟨i, le_refl i, block, hb, owner, heq ▸ hrow, hmv⟩
    · have hr : row < incidence.nEq := (hmem row).1 (List.mem_flatten.2
        ⟨block.rows, List.mem_map.2 ⟨block, List.mem_of_getElem? hb, rfl⟩, hrow⟩)
      obtain ⟨j, hj, rows, hrows, ho⟩ := hord i block.rows (by simp [hb]) row hrow owner
        (edge_iff.2 ⟨hr, heq, unknown, hu, hmv⟩)
      obtain ⟨earlier, he, rfl⟩ := List.getElem?_map .. ▸ hrows |> Option.map_eq_some_iff.1
      exact ⟨j, hj, earlier, he, owner, ho, hmv⟩

/-- The node a new number stands for; numbers past the last stand for no node. -/
def place (incidence : Incidence) (kept : List Nat) (x : Nat) : Nat := (kept[x]?).getD (incidence.nEq + x)

theorem place_eq {kept : List Nat} {x node : Nat} (hn : node < incidence.nEq) :
    place incidence kept x = node ↔ kept[x]? = some node := by
  cases hx : kept[x]? with
  | none => simp only [place, hx, Option.getD_none, reduceCtorEq, iff_false]; omega
  | some m => simp [place, hx]

theorem place_injective {kept : List Nat} (hk : ∀ node ∈ kept, node < incidence.nEq) (hnd : kept.Nodup) :
    Function.Injective (place incidence kept) := by
  intro x y hxy
  cases hx : kept[x]? with
  | some node =>
    have hn := hk node (List.mem_of_getElem? hx)
    have hy : kept[y]? = some node :=
      (place_eq hn).1 (hxy ▸ (place_eq hn).2 hx)
    obtain ⟨hxl, rfl⟩ := List.getElem?_eq_some_iff.1 hx
    obtain ⟨hyl, heq⟩ := List.getElem?_eq_some_iff.1 hy
    exact (hnd.getElem_inj_iff.1 heq).symm
  | none =>
    cases hy : kept[y]? with
    | none => simpa [place, hx, hy] using hxy
    | some node =>
      have hn := hk node (List.mem_of_getElem? hy)
      simp only [place, hx, hy, Option.getD_none, Option.getD_some] at hxy
      omega

/-- Sorting the kept rows alone, behind compact blocks that hold the others. -/
theorem condensed_order (hm : PerfectMatching incidence matchEq matchVar) {structured : List StructuredScalarBlock}
    {keep : List Bool} (hs : SplitInv incidence matchEq (structured, some keep)) :
    let adj := buildDependencyGraph incidence.eqUnknowns matchVar incidence.nEq
    let kept := (condenseNodes adj keep).2
    ∃ sccs, tarjanScc kept.length (condenseNodes adj keep).1 = some sccs ∧
      let cs := structured.map StructuredScalarBlock.rows ++ sccs.map fun scc => scc.filterMap (kept[·]?)
      cs.flatten.Nodup ∧ (∀ x, x ∈ cs.flatten ↔ x < incidence.nEq) ∧ Earlier (Edge adj) cs ∧
        ∀ scc ∈ sccs, IsComponent (Edge adj) (scc.filterMap (kept[·]?)) := by
  intro adj kept
  have hkeep : ∀ node, node ∈ kept ↔
      node < incidence.nEq ∧ node ∉ structured.flatMap StructuredScalarBlock.rows := by
    intro node
    have := hs.flags node
    simp only [Option.getD_some] at this
    rw [mem_keptNodes, this]
    split <;> simp_all
  have hklt : ∀ node ∈ kept, node < incidence.nEq := fun node h => ((hkeep node).1 h).1
  have hsub : ∀ x y, y ∈ neighbors (condenseNodes adj keep).1 x → y < kept.length := by
    intro x y hy
    obtain ⟨_, _, _, hy, _⟩ := edge_condense.1 hy
    exact (List.getElem?_eq_some_iff.1 hy).1
  obtain ⟨sccs, ht, hco, hall⟩ := tarjanScc_spec hsub
  have hE : Edge (condenseNodes adj keep).1 = Pull (Edge adj) (place incidence kept) := by
    funext x y
    refine propext ⟨fun h => ?_, fun h => ?_⟩
    · obtain ⟨node, target, hx, hy, he⟩ := edge_condense.1 h
      have hn := hklt node (List.mem_of_getElem? hx)
      have ht := hklt target (List.mem_of_getElem? hy)
      rw [Pull, (place_eq hn).2 hx, (place_eq ht).2 hy]
      exact he
    · have hn := (edge_iff.1 h).1
      have ht := hm.edge_lt h
      exact edge_condense.2 ⟨_, _, (place_eq hn).1 rfl, (place_eq ht).1 rfl, h⟩
  have hsinks : ∀ x ∈ (structured.map StructuredScalarBlock.rows).flatten, ∀ y, ¬ Edge adj x y := by
    intro x hx y
    exact (hs.selfContained x (by simpa [List.flatMap_def] using hx)).sink hm
  have hrange : ∀ a b, a ∉ Set.range (place incidence kept) → ¬ Edge adj a b := by
    intro a b ha he
    by_cases hak : a ∈ kept
    · obtain ⟨x, hx⟩ := List.mem_iff_getElem?.1 hak
      exact ha ⟨x, (place_eq (hklt a hak)).2 hx⟩
    · have han := (edge_iff.1 he).1
      have hst : a ∈ structured.flatMap StructuredScalarBlock.rows := by
        by_contra hst
        exact hak ((hkeep a).2 ⟨han, hst⟩)
      exact hsinks a (by simpa [List.flatMap_def] using hst) b he
  -- the numbers in a component all stand for kept nodes
  have hmap : ∀ scc ∈ sccs, scc.filterMap (kept[·]?) = scc.map (place incidence kept) := by
    intro scc hscc
    rw [← List.filterMap_eq_map]
    refine List.filterMap_congr fun x hx => ?_
    have hxl : x < kept.length := (hall x).1 (List.mem_flatten.2 ⟨scc, hscc, hx⟩)
    simp [place, hxl]
  have hmaps : (sccs.map fun scc => scc.filterMap (kept[·]?)) = sccs.map (List.map (place incidence kept)) :=
    List.map_congr_left hmap
  have hflat : ∀ x, x ∈ (sccs.map (List.map (place incidence kept))).flatten ↔ x ∈ kept := by
    intro x
    rw [← List.map_flatten, List.mem_map]
    constructor
    · rintro ⟨z, hz, rfl⟩
      have hzl := (hall z).1 hz
      simp [place, hzl]
    · intro hx
      obtain ⟨z, hz⟩ := List.mem_iff_getElem?.1 hx
      exact ⟨z, (hall z).2 (List.getElem?_eq_some_iff.1 hz).1, (place_eq (hklt x hx)).2 hz⟩
  refine ⟨sccs, ht, ?_⟩
  simp only [hmaps]
  refine ⟨?_, fun x => ?_, Earlier.append hsinks ?_, fun scc hscc => ?_⟩
  · rw [List.flatten_append, List.nodup_append]
    refine ⟨by simpa [List.flatMap_def] using hs.nodup, ?_, ?_⟩
    · rw [← List.map_flatten]
      exact hco.nodup.map (place_injective hklt (keptNodes_nodup adj keep))
    · rintro a ha b hb rfl
      exact ((hkeep a).1 ((hflat a).1 hb)).2 (by simpa [List.flatMap_def] using ha)
  · rw [List.flatten_append, List.mem_append, hflat, hkeep, ← List.flatMap_def]
    constructor
    · rintro (h | h)
      · exact (hs.selfContained x h).1
      · exact h.1
    · intro h
      by_cases hst : x ∈ structured.flatMap StructuredScalarBlock.rows
      · exact .inl hst
      · exact .inr ⟨h, hst⟩
  · intro i c hc x hx y he
    rw [List.getElem?_map, Option.map_eq_some_iff] at hc
    obtain ⟨scc, hscc, rfl⟩ := hc
    obtain ⟨a, ha, rfl⟩ := List.mem_map.1 hx
    by_cases hy : y ∈ kept
    · obtain ⟨b, hb⟩ := List.mem_iff_getElem?.1 hy
      have hpb := (place_eq (hklt y hy)).2 hb
      obtain ⟨j, hj, d, hd, hbd⟩ := hco.earlier i scc hscc a ha b (by rw [hE, Pull, hpb]; exact he)
      exact .inr ⟨j, hj, d.map (place incidence kept), by simp [hd], List.mem_map.2 ⟨b, hbd, hpb⟩⟩
    · left
      by_contra hst
      exact hy ((hkeep y).2 ⟨hm.edge_lt he, by simpa [List.flatMap_def] using hst⟩)
  · rw [hmap scc hscc]
    exact IsComponent.map (place_injective hklt (keptNodes_nodup adj keep)) hrange (hE ▸ hco.component scc hscc)

/-- For a perfect matching the blocks are a solve order. -/
theorem buildBltBlocks_solveOrder (view : Option DaeView) (incidence : Incidence) (matchEq matchVar : List (Option Nat))
    (hm : PerfectMatching incidence matchEq matchVar) :
    let adj := buildDependencyGraph incidence.eqUnknowns matchVar incidence.nEq
    ∃ blocks, buildBltBlocks view incidence matchEq adj = some blocks ∧
      SolveOrder incidence matchVar adj blocks := by
  intro adj
  obtain ⟨structured, keep, hsplit, hinv, hnone⟩ :=
    splitSelfContainedFamilies_spec incidence matchEq view
  -- a loop comes from `sccToBlock`, whose rows are the component
  have hloop : ∀ (sccs : List (List Nat)) (blocks : List BltBlock), (∀ scc ∈ sccs, IsComponent (Edge adj) scc) →
      blocks.map BltBlock.rows = sccs → ∀ equations unknowns tearing,
        .AlgebraicLoop equations unknowns tearing ∈ blocks →
        IsComponent (Edge adj) (equations.map (·.index)) := by
    rintro sccs blocks hc rfl equations unknowns tearing hb
    exact hc _ (List.mem_map.2 ⟨_, hb, rfl⟩)
  cases keep with
  | none =>
    obtain rfl := hnone.2 rfl
    obtain ⟨sccs, ht, hco, hall⟩ := tarjanScc_spec (fun x y hy => hm.edge_lt hy : ∀ x, ∀ y ∈ neighbors adj x, y < incidence.nEq)
    obtain ⟨blocks, hb, hrows⟩ := mapM_spec (f := sccToBlock incidence matchEq) (g := id) (r := BltBlock.rows)
      (l := sccs) fun scc hscc => sccToBlock_spec hm fun eq heq => (hall eq).1 (List.mem_flatten.2 ⟨scc, hscc, heq⟩)
    rw [List.map_id] at hrows
    refine ⟨blocks, by simp [buildBltBlocks, hsplit, ht, hb], solveOrder_of_rows hm ?_ ?_
      (hloop sccs blocks hco.component hrows) ?_⟩
    · rw [hrows]; exact hco.nodup
    · rw [hrows]; exact hall
    · rw [hrows]; exact hco.earlier
  | some keep =>
    obtain ⟨sccs, ht, hnd, hmem, hord, hcomp⟩ := condensed_order hm hinv
    obtain ⟨blocks, hb, hrows⟩ := mapM_spec
      (f := fun scc => sccToBlock incidence matchEq (scc.filterMap ((condenseNodes adj keep).2[·]?)))
      (g := fun scc => scc.filterMap ((condenseNodes adj keep).2[·]?)) (r := BltBlock.rows) (l := sccs)
      fun scc hscc => sccToBlock_spec hm fun eq heq => (hmem eq).1 (by
        rw [List.flatten_append, List.mem_append]
        exact .inr (List.mem_flatten.2 ⟨_, List.mem_map.2 ⟨scc, hscc, rfl⟩, heq⟩))
    have hall : (structured.map BltBlock.StructuredScalar ++ blocks).map BltBlock.rows =
        structured.map StructuredScalarBlock.rows ++
          sccs.map fun scc => scc.filterMap ((condenseNodes adj keep).2[·]?) := by
      rw [List.map_append, hrows, List.map_map]
      rfl
    refine ⟨structured.map .StructuredScalar ++ blocks, ?_, solveOrder_of_rows hm ?_ ?_ ?_ ?_⟩
    · simp only [buildBltBlocks, hsplit, Option.bind_eq_bind, Option.bind_some]
      rw [ht, Option.bind_some, hb]
      rfl
    · rw [hall]; exact hnd
    · rw [hall]; exact hmem
    · intro equations unknowns tearing h
      refine hloop _ blocks (fun scc hscc => ?_) hrows equations unknowns tearing ?_
      · obtain ⟨sub, hsub, rfl⟩ := List.mem_map.1 hscc
        exact hcomp sub hsub
      · simpa using h
    · rw [hall]; exact hord

end

/-- A compact family of two rows and a loop of two rows that read its second unknown. -/
def familyAndLoop : Incidence where
  nEq := 4
  nVar := 4
  eqUnknowns := ⟨[[0], [1], [1, 2, 3], [2, 3]], by decide⟩
  unknowns := (List.range 4).map (.Algebraic 0)
  equationRefs := (List.range 4).map .mk
  structuredMatching := [⟨0, 0, 1, 2, [2], [1], [0], [[1]]⟩]
  ownerFirstRow := [0, 2, 3, 4]
  rows_len := rfl
  unknowns_len := rfl
  refs_eq := rfl
  columns_lt := by
    have h : ∀ equation < 4, ∀ unknown ∈ IncidenceRows.row ⟨[[0], [1], [1, 2, 3], [2, 3]], by decide⟩ equation,
        unknown < 4 := by decide
    intro equation unknown hu
    rcases Nat.lt_or_ge equation 4 with hlt | hge
    · exact h equation hlt unknown hu
    · rw [IncidenceRows.row_eq_nil (by simpa [IncidenceRows.len] using hge)] at hu
      cases hu

theorem familyAndLoop_solveOrder :
    let matching := [some 0, some 1, some 3, some 2]
    let adj := buildDependencyGraph familyAndLoop.eqUnknowns matching 4
    ∃ blocks, buildBltBlocks none familyAndLoop matching adj = some blocks ∧
      SolveOrder familyAndLoop matching adj blocks :=
  buildBltBlocks_solveOrder none familyAndLoop [some 0, some 1, some 3, some 2] [some 0, some 1, some 3, some 2]
    ⟨by decide, by decide⟩

end Rumoca.Structural
