import Rumoca.Flatten.VcgOrientation
import Rumoca.Lib.ForestCount
/-!
# Counting the break edges

The balance check counts the break edges of a component by a formula: its edges
less its nodes, plus its definite roots. The edge forest breaks just as many,
since the trees of a component are as many as its definite roots, or one.
-/

namespace Rumoca.Flatten

open Rumoca.Lib

def inside (component : List Node) (es : List Edge) : List Edge :=
  es.filter fun (a, b) => a ∈ component && b ∈ component

def countComponentBreakEdges (component : List Node) (branches optionalEdges : List Edge) (definiteRoots : List Node) :
    Nat :=
  let edgeCount := (inside component (branches ++ optionalEdges)).length
  let rootCount := max (component.filter (· ∈ definiteRoots)).length 1
  edgeCount - (component.length - rootCount)

variable {data : VcgPreScanData} {optionalEdges : List Edge} {component : List Node}

/-! ## The trees of a component -/

section
variable {selected broken : List Edge}

/-- With a definite root in the component, every tree holds one: a tree without would take an edge that leaves it. -/
theorem holdsDefinite_of_component (hparts : (selected ++ broken).Perm optionalEdges)
    (hbreaks : ∀ e ∈ broken, Breaks data.definiteRoots (data.branches ++ selected) e) {d x : Node}
    (hd : d ∈ data.definiteRoots) (hj : Joined (data.branches ++ optionalEdges) d x) :
    HoldsDefinite data.definiteRoots (data.branches ++ selected) x := by
  refine (hj.closed (P := HoldsDefinite data.definiteRoots (data.branches ++ selected)) fun e he => ?_).1
    ⟨d, hd, .refl _ _⟩
  have htaken : e ∈ data.branches ++ selected → (HoldsDefinite data.definiteRoots (data.branches ++ selected) e.1 ↔
      HoldsDefinite data.definiteRoots (data.branches ++ selected) e.2) := fun he =>
    have hj : Joined (data.branches ++ selected) e.1 e.2 := .of_mem he
    ⟨fun h => h.joined hj, fun h => h.joined hj.symm⟩
  rcases List.mem_append.1 he with he | he
  · exact htaken (List.mem_append_left _ he)
  · rcases List.mem_append.1 (hparts.symm.subset he) with he | he
    · exact htaken (List.mem_append_right _ he)
    · rcases hbreaks e he with hj | ⟨h₁, h₂⟩
      · exact ⟨fun h => h.joined hj, fun h => h.joined hj.symm⟩
      · exact iff_of_true h₁ h₂

theorem joined_of_component (hparts : (selected ++ broken).Perm optionalEdges)
    (hbreaks : ∀ e ∈ broken, Breaks data.definiteRoots (data.branches ++ selected) e) {x y : Node}
    (hnone : ∀ d ∈ data.definiteRoots, ¬ Joined (data.branches ++ optionalEdges) x d)
    (hj : Joined (data.branches ++ optionalEdges) x y) : Joined (data.branches ++ selected) x y := by
  have hsub : ∀ e ∈ data.branches ++ selected, e ∈ data.branches ++ optionalEdges := fun e he =>
    (List.mem_append.1 he).elim (List.mem_append_left _) fun he =>
      List.mem_append_right _ (hparts.subset (List.mem_append_left _ he))
  refine (hj.closed (P := fun z => Joined (data.branches ++ selected) x z) fun e he => ?_).1 (.refl _ _)
  have htaken : e ∈ data.branches ++ selected →
      (Joined (data.branches ++ selected) x e.1 ↔ Joined (data.branches ++ selected) x e.2) := fun he =>
    have hj : Joined (data.branches ++ selected) e.1 e.2 := .of_mem he
    ⟨fun h => h.trans hj, fun h => h.trans hj.symm⟩
  rcases List.mem_append.1 he with he | he
  · exact htaken (List.mem_append_left _ he)
  · rcases List.mem_append.1 (hparts.symm.subset he) with hsel | hbroken
    · exact htaken (List.mem_append_right _ hsel)
    · have hends : Joined (data.branches ++ optionalEdges) e.1 e.2 := .of_mem (List.mem_append_right _ he)
      rcases hbreaks e hbroken with hj | ⟨⟨d, hd, h₁⟩, ⟨d', hd', h₂⟩⟩
      · exact ⟨fun h => h.trans hj, fun h => h.trans hj.symm⟩
      · -- a definite root of the tree would be one of the component
        exact iff_of_false (fun h => hnone d hd ((h.mono hsub).trans (h₁.mono hsub).symm))
          fun h => hnone d' hd' ((h.mono hsub).trans (h₂.mono hsub).symm)

end

/-! ## The count -/

theorem ends_component {es : List Edge} {allNodes : List Node} {components : List (List Node)}
    (hcomponents : AreComponents es allNodes components) (hc : component ∈ components) {e : Edge} (he : e ∈ es) :
    e.1 ∈ component ↔ e.2 ∈ component := by
  have hj : Lib.Joined es e.1 e.2 := .of_mem he
  exact ⟨fun h => (hcomponents.tree component hc e.1 h e.2).2 hj, fun h => (hcomponents.tree component hc e.2 h e.1).2 hj.symm⟩

theorem length_inside_taken {selected broken : List Edge} (hparts : (selected ++ broken).Perm optionalEdges)
    (hspan : IsSpanningForest data.definiteRoots (data.branches ++ selected))
    (hbreaks : ∀ e ∈ broken, Breaks data.definiteRoots (data.branches ++ selected) e) {allNodes : List Node}
    {components : List (List Node)} (hcomponents : AreComponents (data.branches ++ optionalEdges) allNodes components)
    (hc : component ∈ components) :
    (inside component (data.branches ++ selected)).length +
      max (component.filter (· ∈ data.definiteRoots)).length 1 = component.length := by
  have hnodup : component.Nodup := (List.nodup_flatten.1 hcomponents.nodup).1 component hc
  have hsub : ∀ e ∈ data.branches ++ selected, e ∈ data.branches ++ optionalEdges := fun e he =>
    (List.mem_append.1 he).elim (List.mem_append_left _) fun he =>
      List.mem_append_right _ (hparts.subset (List.mem_append_left _ he))
  have hends : ∀ e ∈ data.branches ++ selected, e.1 ∈ component ↔ e.2 ∈ component := fun e he =>
    ends_component hcomponents hc (hsub e he)
  have hinside : inside component (data.branches ++ selected) =
      (data.branches ++ selected).filter (·.1 ∈ component.toFinset) := by
    refine List.filter_congr fun e he => ?_
    have := hends e he
    simp only [List.mem_toFinset]
    by_cases h : e.1 ∈ component
    · simp [h, this.1 h]
    · simp [h]
  have hin : ∀ {x y}, x ∈ component → (Joined (data.branches ++ optionalEdges) x y ↔ y ∈ component) := fun hx =>
    (hcomponents.tree component hc _ hx _).symm
  have hcount : ∀ R : Finset Node, R ⊆ component.toFinset → (∀ x ∈ component, ∃ r ∈ R, Joined (data.branches ++ selected) r x) →
      (∀ r ∈ R, ∀ r' ∈ R, Joined (data.branches ++ selected) r r' → r = r') →
      (inside component (data.branches ++ selected)).length + R.card = component.length := by
    intro R hR hcover hone
    rw [hinside, ← List.toFinset_card_of_nodup hnodup]
    exact hspan.acyclic.length_add_card (fun e he => by simpa using hends e he) hR (by simpa using hcover) hone
  by_cases hroots : (component.filter (· ∈ data.definiteRoots)) = []
  · -- one tree, and any node of it
    obtain ⟨x, hx⟩ := List.exists_mem_of_ne_nil component (hcomponents.nonempty component hc)
    have hnone : ∀ d ∈ data.definiteRoots, d ∉ component := fun d hd hdc => by
      have : d ∈ component.filter (· ∈ data.definiteRoots) := List.mem_filter.2 ⟨hdc, by simpa using hd⟩
      rw [hroots] at this
      cases this
    have hone := hcount {x} (by simpa using hx) (fun y hy => ⟨x, Finset.mem_singleton_self x,
      joined_of_component hparts hbreaks (fun d hd hj => hnone d hd ((hin hx).1 hj)) ((hin hx).2 hy)⟩)
      (fun r hr r' hr' _ => by rw [Finset.mem_singleton.1 hr, Finset.mem_singleton.1 hr'])
    rw [hroots]
    simpa using hone
  · have hR := hcount (component.filter (· ∈ data.definiteRoots)).toFinset
      (fun x hx => by
        rw [List.mem_toFinset] at hx ⊢
        exact (List.mem_filter.1 hx).1)
      (fun x hx => by
        obtain ⟨d, hd⟩ := List.exists_mem_of_ne_nil _ hroots
        obtain ⟨hdc, hdef⟩ := List.mem_filter.1 hd
        obtain ⟨r, hr, hj⟩ := holdsDefinite_of_component hparts hbreaks (by simpa using hdef) ((hin hdc).2 hx)
        have hrc : r ∈ component := (hin hx).1 (hj.mono hsub).symm
        exact ⟨r, by simpa using ⟨hrc, hr⟩, hj⟩)
      (fun r hr r' hr' hj => by
        rw [List.mem_toFinset, List.mem_filter] at hr hr'
        exact hspan.definite r (by simpa using hr.2) r' (by simpa using hr'.2) hj)
    rw [List.toFinset_card_of_nodup (hnodup.filter _)] at hR
    have hpos : 1 ≤ (component.filter (· ∈ data.definiteRoots)).length := List.length_pos_iff.2 hroots
    rw [max_eq_left hpos]
    exact hR

/-- For required edges that pass, the formula counts the optional edges of each
component that the spanning forest breaks, whatever the order in which the
nodes are visited. -/
theorem countComponentBreakEdges_eq (data : VcgPreScanData) (optionalEdges : List Edge) (required : VcgEdgeForest)
    (hrequired : constructRequiredEdgeForest data optionalEdges = pure required) (allNodes allNodes' : List Node)
    (hnodup : allNodes.Nodup) (hnodes : ∀ x, x ∈ allNodes ↔ x ∈ collectAllNodes data optionalEdges)
    (hnodup' : allNodes'.Nodup) (hnodes' : ∀ x, x ∈ allNodes' ↔ x ∈ collectAllNodes data optionalEdges) :
    ∃ result components, buildVcg data allNodes optionalEdges required = some result ∧
      findConnectedComponents (neighbors (data.branches ++ optionalEdges)) allNodes' = some components ∧
      ∀ component ∈ components, countComponentBreakEdges component data.branches optionalEdges data.definiteRoots =
        (inside component result.spanningForest.broken).length := by
  obtain ⟨result, hresult, ⟨run⟩⟩ := buildVcg_run hrequired hnodup hnodes
  obtain ⟨components, hfind, hcomponents⟩ := findConnectedComponents_spec hnodup'
    (fun e he => ⟨(hnodes' _).2 (ends_mem_collectAllNodes data optionalEdges he).1,
      (hnodes' _).2 (ends_mem_collectAllNodes data optionalEdges he).2⟩)
  refine ⟨result, components, hresult, hfind, fun component hc => ?_⟩
  have htaken := length_inside_taken run.parts run.spanning run.breaks hcomponents hc
  have hsplit : (inside component (data.branches ++ optionalEdges)).length =
      (inside component (data.branches ++ run.selection.selected)).length +
        (inside component run.selection.broken).length := by
    unfold inside
    rw [← List.length_append, ← List.filter_append, List.append_assoc]
    exact ((run.parts.symm.append_left data.branches).filter _).length_eq
  rw [run.broken_eq]
  unfold countComponentBreakEdges
  simp only [hsplit]
  omega

/-- The loop has one edge too many, and an edge from `a` to itself. -/
theorem countComponentBreakEdges_loop : ∃ result components,
    buildVcg loopData ["z", "d", "a", "b", "c", "r"] loopEdges loopRequired = some result ∧
    findConnectedComponents (neighbors (loopData.branches ++ loopEdges)) ["r", "z", "d", "a", "b", "c"] = some components ∧
    ∀ component ∈ components, countComponentBreakEdges component loopData.branches loopEdges loopData.definiteRoots =
      (inside component result.spanningForest.broken).length :=
  countComponentBreakEdges_eq loopData loopEdges loopRequired rfl ["z", "d", "a", "b", "c", "r"]
    ["r", "z", "d", "a", "b", "c"] (by decide)
    (fun x => by
      simp [collectAllNodes, loopData, loopEdges]
      tauto) (by decide) (fun x => by
      simp [collectAllNodes, loopData, loopEdges]
      tauto)

end Rumoca.Flatten
