import Mathlib.Data.Nat.Find
import Rumoca.Flatten.VcgForest
/-!
# Roots and orientation of the virtual connection graph

The components found by the search are the trees of the edges, so each tree
gets exactly one root, and a branch is oriented by shortest distances from it.
-/

namespace Rumoca.Flatten

open Rumoca.Lib Rumoca.Lib.Search

/-! ## Neighbours -/

theorem mem_neighbors {es : List Edge} {x y : Node} : y ∈ neighbors es x ↔ (x, y) ∈ es ∨ (y, x) ∈ es := by
  rw [neighbors, List.mem_flatMap]
  constructor
  · rintro ⟨⟨a, b⟩, he, hy⟩
    rcases List.mem_append.1 hy with hy | hy
    · by_cases ha : a = x
      · subst ha
        simp only [if_true, List.mem_singleton] at hy
        exact .inl (hy ▸ he)
      · simp [ha] at hy
    · by_cases hb : b = x
      · subst hb
        simp only [if_true, List.mem_singleton] at hy
        exact .inr (hy ▸ he)
      · simp [hb] at hy
  · rintro (he | he)
    · exact ⟨(x, y), he, by simp⟩
    · exact ⟨(y, x), he, by simp⟩

theorem neighbors_symm {es : List Edge} (x y : Node) (h : y ∈ neighbors es x) : x ∈ neighbors es y := by
  rw [mem_neighbors] at h ⊢
  exact h.symm

theorem reach_neighbors {es : List Edge} {x y : Node} : Reach (neighbors es) x y ↔ Joined es x y := by
  constructor
  · intro h
    induction h with
    | refl => exact .refl es x
    | tail _ hz ih =>
      rcases mem_neighbors.1 hz with hz | hz
      · exact ih.trans (.of_mem hz)
      · exact ih.trans (Joined.of_mem hz).symm
  · intro h
    have hsymm : ∀ {a b}, Reach (neighbors es) a b → Reach (neighbors es) b a := by
      intro a b hab
      induction hab with
      | refl => exact .refl
      | @tail b c _ hc ih => exact .head (neighbors_symm b c hc) ih
    induction h with
    | rel a b hab => exact .single (mem_neighbors.2 (.inl hab))
    | refl a => exact .refl
    | symm a b _ ih => exact hsymm ih
    | trans a b c _ _ ih₁ ih₂ => exact ih₁.trans ih₂

theorem exists_distance {es : List Edge} {x y : Node} (h : Joined es x y) : ∃ d, IsDistance (neighbors es) x y d := by
  classical
  have hw := (reach_neighbors.2 h).walk
  exact ⟨Nat.find hw, Nat.find_spec hw, fun k hk => Nat.find_min' hw hk⟩

theorem IsDistance.joined {es : List Edge} {x y : Node} {d : Nat} (h : IsDistance (neighbors es) x y d) :
    Joined es x y :=
  reach_neighbors.1 h.1.reach

/-! ## Components -/

/-- The components of a graph over `allNodes`: the trees, each node in one of them. -/
structure AreComponents (es : List Edge) (allNodes : List Node) (components : List (List Node)) : Prop where
  cover : ∀ x, x ∈ components.flatten ↔ x ∈ allNodes
  nodup : components.flatten.Nodup
  tree : ∀ c ∈ components, ∀ x ∈ c, ∀ y, y ∈ c ↔ Joined es x y
  nonempty : ∀ c ∈ components, c ≠ []

section
variable {es : List Edge} {allNodes : List Node}

theorem neighbors_inside (hends : ∀ e ∈ es, e.1 ∈ allNodes ∧ e.2 ∈ allNodes) :
    ∀ x ∈ allNodes.toFinset, ∀ y ∈ neighbors es x, y ∈ allNodes.toFinset := by
  intro x _ y hy
  rw [List.mem_toFinset]
  rcases mem_neighbors.1 hy with h | h
  · exact (hends _ h).2
  · exact (hends _ h).1

theorem card_lt (hnodup : allNodes.Nodup) : allNodes.toFinset.card < allNodes.length + 1 := by
  rw [List.toFinset_card_of_nodup hnodup]
  exact Nat.lt_succ_self _

theorem findConnectedComponents_spec (hnodup : allNodes.Nodup)
    (hends : ∀ e ∈ es, e.1 ∈ allNodes ∧ e.2 ∈ allNodes) :
    ∃ components, findConnectedComponents (neighbors es) allNodes = some components ∧
      AreComponents es allNodes components := by
  obtain ⟨s, hs, hvisited, hpre, hinside, hnodup', htree, hne⟩ := foldlM_spec (l := allNodes)
    (f := Visit.turn (neighbors es) (allNodes.length + 1)) (s := ⟨fun _ => none, []⟩)
    (fun pre s => (∀ x, (s.visited x).isSome ↔ x ∈ s.components.flatten) ∧ (∀ x ∈ pre, x ∈ s.components.flatten) ∧
      (∀ x ∈ s.components.flatten, x ∈ allNodes) ∧ s.components.flatten.Nodup ∧
      (∀ c ∈ s.components, ∀ x ∈ c, ∀ y, y ∈ c ↔ Joined es x y) ∧ ∀ c ∈ s.components, c ≠ [])
    (fun pre node post s hl ⟨hvisited, hpre, hinside, hnd, htree, hne⟩ => by
      cases hv : s.visited node with
      | some u =>
        refine ⟨s, by simp [Visit.turn, hv], hvisited, fun x hx => ?_, hinside, hnd, htree, hne⟩
        rcases List.mem_append.1 hx with hx | hx
        · exact hpre x hx
        · obtain rfl := List.mem_singleton.1 hx
          exact (hvisited x).1 (by simp [hv])
      | none =>
        have hnode : node ∈ allNodes := by rw [hl]; simp
        have hstart : Inv (neighbors es) allNodes.toFinset s.visited [node] (start s.visited () [node]) :=
          start_inv (List.nodup_singleton node) (by simpa using hnode) (by simpa using hv) ()
        obtain ⟨r, hr, hinv, hq⟩ := run_inv id (neighbors_inside hends) hstart (by rw [start_eq])
          (card_lt hnodup)
        have hqt : r.taken ++ r.queue = r.taken := by rw [hq, List.append_nil]
        -- the nodes visited before are whole trees, so the search stays off them
        have hclosed : ∀ x, (s.visited x).isSome → ∀ y ∈ neighbors es x, (s.visited y).isSome := by
          intro x hx y hy
          obtain ⟨c, hc, hxc⟩ := List.mem_flatten.1 ((hvisited x).1 hx)
          exact (hvisited y).2 (List.mem_flatten.2 ⟨c, hc, (htree c hc x hxc y).2 (reach_neighbors.1 (.single hy))⟩)
        have htaken : ∀ x, x ∈ r.taken ↔ Joined es node x := by
          intro x
          rw [taken_iff neighbors_symm hclosed hinv hq, ← reach_neighbors]
          simp
        refine ⟨⟨r.seen, s.components ++ [r.taken]⟩, ?_, fun x => ?_, fun x hx => ?_, fun x hx => ?_, ?_,
          fun c hc x hx y => ?_, fun c hc => ?_⟩
        · simp only [Visit.turn, hv, bfsComponent, hr, Option.isSome_none, Option.bind_eq_bind, Option.bind_some]
          rfl
        · rw [hinv.seen, hqt, hvisited, List.flatten_append, List.mem_append, List.flatten_singleton]
        · rw [List.flatten_append, List.flatten_singleton, List.mem_append]
          rcases List.mem_append.1 hx with hx | hx
          · exact .inl (hpre x hx)
          · exact .inr ((htaken x).2 (List.mem_singleton.1 hx ▸ .refl es x))
        · rw [List.flatten_append, List.flatten_singleton, List.mem_append] at hx
          rcases hx with hx | hx
          · exact hinside x hx
          · exact List.mem_toFinset.1 (hinv.inside x (List.mem_append_left _ hx))
        · rw [List.flatten_append, List.flatten_singleton]
          refine List.nodup_append.2 ⟨hnd, hqt ▸ hinv.nodup, fun a ha b hb he => ?_⟩
          have := (hvisited a).2 ha
          rw [he, hinv.fresh b (List.mem_append_left _ hb)] at this
          cases this
        · rcases List.mem_append.1 hc with hc | hc
          · exact htree c hc x hx y
          · obtain rfl := List.mem_singleton.1 hc
            rw [htaken] at hx ⊢
            exact ⟨fun hy => hx.symm.trans hy, fun hy => hx.trans hy⟩
        · rcases List.mem_append.1 hc with hc | hc
          · exact hne c hc
          · obtain rfl := List.mem_singleton.1 hc
            exact List.ne_nil_of_mem ((htaken node).2 (.refl es node)))
    ⟨by simp, by simp, by simp, by simp, by simp, by simp⟩
  refine ⟨s.components, ?_, fun x => ⟨hinside x, hpre x⟩, hnodup', htree, hne⟩
  unfold findConnectedComponents
  rw [hs]
  rfl

end

/-! ## Roots -/

section
variable {data : VcgPreScanData} {es : List Edge} {component : List Node}

/-- `best` is the best potential root among `potentials` inside the component. -/
def IsBestPotential (component : List Node) (potentials : List (Node × Int)) (best : Option (Node × Int)) : Prop :=
  match best with
  | none => ∀ p ∈ potentials, p.1 ∉ component
  | some b => b ∈ potentials ∧ b.1 ∈ component ∧
      ∀ p ∈ potentials, p.1 ∈ component → b.2 < p.2 ∨ (b.2 = p.2 ∧ b.1 ≤ p.1)

theorem betterPotentialRoot_spec (component : List Node) (potentials : List (Node × Int)) :
    IsBestPotential component potentials (potentials.foldl (betterPotentialRoot component) none) := by
  refine foldl_inv (fun pre best => IsBestPotential component pre best) (fun pre p post best _ hbest => ?_) ?_
  · unfold betterPotentialRoot
    by_cases hp : p.1 ∉ component
    · rw [if_pos hp]
      cases best with
      | none =>
        intro q hq
        rcases List.mem_append.1 hq with hq | hq
        · exact hbest q hq
        · exact List.mem_singleton.1 hq ▸ hp
      | some b =>
        refine ⟨List.mem_append_left _ hbest.1, hbest.2.1, fun q hq hin => ?_⟩
        rcases List.mem_append.1 hq with hq | hq
        · exact hbest.2.2 q hq hin
        · exact absurd (List.mem_singleton.1 hq ▸ hin) hp
    · rw [if_neg hp]
      rw [not_not] at hp
      cases best with
      | none =>
        refine ⟨by simp, hp, fun q hq hin => ?_⟩
        rcases List.mem_append.1 hq with hq | hq
        · exact absurd hin (hbest q hq)
        · rw [List.mem_singleton.1 hq]
          exact .inr ⟨rfl, le_rfl⟩
      | some b =>
        obtain ⟨hb, hbin, hle⟩ := hbest
        by_cases hless : p.2 < b.2 ∨ (p.2 = b.2 ∧ p.1 < b.1)
        · -- the new potential root lies before the best one, and so before all of them
          simp only [if_pos hless]
          refine ⟨by simp, hp, fun q hq hin => ?_⟩
          rcases List.mem_append.1 hq with hq | hq
          · rcases hless with hlt | ⟨he, hlt⟩ <;> rcases hle q hq hin with hlt' | ⟨he', hle'⟩
            · exact .inl (hlt.trans hlt')
            · exact .inl (he' ▸ hlt)
            · exact .inl (he ▸ hlt')
            · exact .inr ⟨he.trans he', hlt.le.trans hle'⟩
          · rw [List.mem_singleton.1 hq]
            exact .inr ⟨rfl, le_rfl⟩
        · simp only [if_neg hless]
          refine ⟨List.mem_append_left _ hb, hbin, fun q hq hin => ?_⟩
          rcases List.mem_append.1 hq with hq | hq
          · exact hle q hq hin
          · rw [List.mem_singleton.1 hq]
            rw [not_or, not_and] at hless
            rcases Int.lt_or_eq_of_le (Int.not_lt.1 hless.1) with hlt | he
            · exact .inl hlt
            · exact .inr ⟨he, not_lt.1 (hless.2 he.symm)⟩
  · exact fun p hp => nomatch hp

/-- The root of a component: a definite root, else the potential root of lowest priority and then the first,
else the first node. -/
def IsSelectedRoot (data : VcgPreScanData) (component : List Node) (r : Node) : Prop :=
  r ∈ data.definiteRoots ∨ ((∀ x ∈ component, x ∉ data.definiteRoots) ∧
    ((∃ priority, (r, priority) ∈ data.potentialRoots ∧ ∀ p ∈ data.potentialRoots, p.1 ∈ component →
        priority < p.2 ∨ (priority = p.2 ∧ r ≤ p.1)) ∨
      ((∀ p ∈ data.potentialRoots, p.1 ∉ component) ∧ ∀ x ∈ component, r ≤ x)))

theorem selectRoot_spec (data : VcgPreScanData) (hne : component ≠ []) :
    ∃ r ∈ component, selectRoot data component = some r ∧ IsSelectedRoot data component r := by
  cases hd : component.find? (· ∈ data.definiteRoots) with
  | some r =>
    refine ⟨r, List.mem_of_find?_eq_some hd, ?_, .inl (by simpa using List.find?_some hd)⟩
    simp only [selectRoot, hd]
  | none =>
    have hnone : ∀ x ∈ component, x ∉ data.definiteRoots := by simpa using hd
    have hbest := betterPotentialRoot_spec component data.potentialRoots
    cases hb : data.potentialRoots.foldl (betterPotentialRoot component) none with
    | some b =>
      rw [hb] at hbest
      obtain ⟨hmem, hin, hle⟩ := hbest
      have hfind : component.find? (· = b.1) = some b.1 := by
        obtain ⟨r, hr⟩ := Option.isSome_iff_exists.1 (List.find?_isSome.2 ⟨b.1, hin, by simp⟩ :
          (component.find? (· = b.1)).isSome)
        have : r = b.1 := by simpa using List.find?_some hr
        rw [hr, this]
      refine ⟨b.1, hin, ?_, .inr ⟨hnone, .inl ⟨b.2, hmem, hle⟩⟩⟩
      simp only [selectRoot, hd, findBestPotentialRoot, hb, Option.bind_eq_bind, Option.bind_some, hfind]
    | none =>
      rw [hb] at hbest
      obtain ⟨r, hr⟩ := Option.isSome_iff_exists.1 (List.isSome_min?_of_ne_nil hne)
      have hmin := List.min?_eq_some_iff.1 hr
      refine ⟨r, hmin.1, ?_, .inr ⟨hnone, .inr ⟨hbest, hmin.2⟩⟩⟩
      simp only [selectRoot, hd, findBestPotentialRoot, hb, Option.bind_eq_bind, Option.bind_none, hr]

theorem componentSeeds_spec (data : VcgPreScanData) {components : List (List Node)} (hnodup : components.flatten.Nodup)
    (hne : ∀ c ∈ components, c ≠ []) :
    ∃ seeds, components.mapM (componentSeeds data) = some seeds ∧ seeds.flatten.Nodup ∧
      ∀ x ∈ seeds.flatten, x ∈ components.flatten := by
  induction components with
  | nil => exact ⟨[], rfl, List.nodup_nil, fun x hx => nomatch hx⟩
  | cons c components ih =>
    rw [List.flatten_cons, List.nodup_append] at hnodup
    obtain ⟨hc, hrest, hdisj⟩ := hnodup
    obtain ⟨seeds, hseeds, hnd, hsub⟩ := ih hrest fun c hc => hne c (by simp [hc])
    obtain ⟨own, hown, hownnd, hownsub⟩ : ∃ own, componentSeeds data c = some own ∧ own.Nodup ∧ ∀ x ∈ own, x ∈ c := by
      by_cases he : (c.filter (· ∈ data.definiteRoots)).isEmpty
      · obtain ⟨r, hr, hsel, -⟩ := selectRoot_spec data (hne c (by simp))
        refine ⟨[r], ?_, List.nodup_singleton r, by simpa using hr⟩
        simp only [componentSeeds, if_pos he, hsel, Option.bind_eq_bind, Option.bind_some]
        rfl
      · refine ⟨c.filter (· ∈ data.definiteRoots), ?_, hc.filter _, fun x hx => (List.mem_filter.1 hx).1⟩
        simp only [componentSeeds, if_neg he]
    refine ⟨own :: seeds, ?_, ?_, fun x hx => ?_⟩
    · rw [List.mapM_cons, hown, hseeds]
      rfl
    · rw [List.flatten_cons]
      exact List.nodup_append.2 ⟨hownnd, hnd, fun a ha b hb => hdisj a (hownsub a ha) b (hsub b hb)⟩
    · rw [List.flatten_cons, List.mem_append] at hx ⊢
      exact hx.imp (hownsub x) (hsub x)

end

/-! ## The order of the optional edges -/

theorem orderOptionalEdges_spec (data : VcgPreScanData) {allNodes : List Node} {optionalEdges : List Edge}
    (hnodup : allNodes.Nodup) (hends : ∀ e ∈ data.branches ++ optionalEdges, e.1 ∈ allNodes ∧ e.2 ∈ allNodes) :
    ∃ ordered, orderOptionalEdgesByRootDistance data allNodes optionalEdges = some ordered ∧
      ordered.Perm optionalEdges := by
  obtain ⟨components, hfind, hcomp⟩ := findConnectedComponents_spec hnodup hends
  obtain ⟨seeds, hseeds, hnd, hsub⟩ := componentSeeds_spec data hcomp.nodup hcomp.nonempty
  have hin : ∀ x ∈ seeds.flatten, x ∈ allNodes.toFinset := fun x hx =>
    List.mem_toFinset.2 ((hcomp.cover x).1 (hsub x hx))
  obtain ⟨r, hr, -, -⟩ := run_inv (· + 1) (neighbors_inside hends)
    (start_inv hnd hin (fun _ _ => rfl) 0) (by rw [start_eq]) (card_lt hnodup)
  refine ⟨optionalEdges.insertionSort fun e f => edgeKey r.seen e ≤ edgeKey r.seen f, ?_,
    List.perm_insertionSort _ optionalEdges⟩
  unfold orderOptionalEdgesByRootDistance rootDistances
  simp only [hfind, hseeds, hr, Option.bind_eq_bind, Option.bind_some]
  rfl

/-- The root of the tree of `x`: its definite root, else its potential root of lowest priority and then the
alphabetically first, else its alphabetically first node. -/
def IsTreeRoot (data : VcgPreScanData) (es : List Edge) (allNodes : List Node) (x r : Node) : Prop :=
  Joined es x r ∧ (r ∈ data.definiteRoots ∨ (¬ HoldsDefinite data.definiteRoots es x ∧
    ((∃ priority, (r, priority) ∈ data.potentialRoots ∧ ∀ p ∈ data.potentialRoots, Joined es x p.1 →
        priority < p.2 ∨ (priority = p.2 ∧ r ≤ p.1)) ∨
      ((∀ p ∈ data.potentialRoots, ¬ Joined es x p.1) ∧ ∀ y ∈ allNodes, Joined es x y → r ≤ y))))

/-! ## Orientation -/

section
variable {data : VcgPreScanData} {es : List Edge} {allNodes : List Node}

/-- What a component leaves for its nodes, below its root `r`. -/
structure Oriented (data : VcgPreScanData) (es : List Edge) (component : List Node) (r : Node) (s : Orientation) :
    Prop where
  isRoot : ∀ x ∈ component, s.isRoot x =
    some (decide (x ∈ data.definiteRoots) || (!component.any (· ∈ data.definiteRoots) && decide (x = r)))
  rooted : ∀ x ∈ component, ∃ b, s.rooted x = some b
  depths : ∀ x ∈ component, ∀ d, s.depths x = some d ↔ IsDistance (neighbors es) r x d

/-- The orientation after a component with root `r` and the depths below it. -/
def Orientation.after (data : VcgPreScanData) (component : List Node) (r : Node) (depths : Node → Option Nat)
    (s : Orientation) : Orientation where
  isRoot x :=
    if x ∈ component then
      some (decide (x ∈ data.definiteRoots) || (!component.any (· ∈ data.definiteRoots) && decide (x = r)))
    else s.isRoot x
  rooted x := if x ∈ component then some false else s.rooted x
  depths x := (depths x).or (s.depths x)

theorem Orientation.after_depths (s : Orientation) (component : List Node) (r : Node) (depths : Node → Option Nat)
    (x : Node) : (s.after data component r depths).depths x = (depths x).or (s.depths x) := rfl

theorem orientComponent_eq {component : List Node} {r : Node} {found : Search Node Nat} {adj : Node → List Node}
    {fuel : Nat} (hroot : selectRoot data component = some r)
    (hrun : run adj (· + 1) fuel (start (fun _ => none) 0 [r]) = some found) (s : Orientation) :
    orientComponent data adj fuel s component = some (s.after data component r found.seen) := by
  unfold orientComponent bfsDepths
  simp only [hroot, hrun, Option.bind_eq_bind, Option.bind_some, Option.pure_def, Option.some.injEq]
  -- the pass over the nodes of the component, node by node
  have hpass := foldl_inv (l := component) (s := ({ s with depths := fun x => (found.seen x).or (s.depths x) } : Orientation))
    (f := fun s node => { s with
      isRoot := Function.update s.isRoot node (some (decide (node ∈ data.definiteRoots) ||
        (!component.any (· ∈ data.definiteRoots) && decide (node = r))))
      rooted := Function.update s.rooted node (some false) })
    (fun pre t => t.depths = (fun x => (found.seen x).or (s.depths x)) ∧
      (∀ x, t.isRoot x = if x ∈ pre then some (decide (x ∈ data.definiteRoots) ||
        (!component.any (· ∈ data.definiteRoots) && decide (x = r))) else s.isRoot x) ∧
      ∀ x, t.rooted x = if x ∈ pre then some false else s.rooted x)
    (fun pre node post t _ ⟨hdepths, hisRoot, hrooted⟩ => by
      refine ⟨hdepths, fun x => ?_, fun x => ?_⟩
      · by_cases hx : x = node
        · subst hx
          simp
        · refine (Function.update_of_ne hx _ _).trans ((hisRoot x).trans ?_)
          simp [hx]
      · by_cases hx : x = node
        · subst hx
          simp
        · refine (Function.update_of_ne hx _ _).trans ((hrooted x).trans ?_)
          simp [hx])
    ⟨rfl, by simp, by simp⟩
  obtain ⟨hdepths, hisRoot, hrooted⟩ := hpass
  exact congr (congr (congrArg Orientation.mk (funext hisRoot)) (funext hrooted)) hdepths

theorem orientComponent_spec (data : VcgPreScanData) (hnodup : allNodes.Nodup) (hends : ∀ e ∈ es, e.1 ∈ allNodes ∧ e.2 ∈ allNodes)
    {component : List Node} (hne : component ≠ []) (hin : ∀ x ∈ component, x ∈ allNodes)
    (htree : ∀ x ∈ component, ∀ y, y ∈ component ↔ Joined es x y) (s : Orientation) :
    ∃ s' r, orientComponent data (neighbors es) (allNodes.length + 1) s component = some s' ∧ r ∈ component ∧
      IsSelectedRoot data component r ∧ Oriented data es component r s' ∧
      ∀ x, x ∉ component → s'.isRoot x = s.isRoot x ∧ s'.rooted x = s.rooted x ∧ s'.depths x = s.depths x := by
  obtain ⟨r, hr, hselect, hsel⟩ := selectRoot_spec data hne
  obtain ⟨found, hrun, hdepth⟩ := run_depths r (neighbors_inside hends) (by simpa using hin r hr)
    (card_lt hnodup)
  refine ⟨s.after data component r found.seen, r, orientComponent_eq hselect hrun s, hr, hsel, ?_, fun x hx => ?_⟩
  · refine ⟨fun x hx => if_pos hx, fun x hx => ⟨false, if_pos hx⟩, fun x hx d => ?_⟩
    obtain ⟨e, he⟩ := exists_distance ((htree r hr x).1 hx)
    have hafter : (s.after data component r found.seen).depths x = some e := by
      rw [Orientation.after_depths, (hdepth x e).2 he, Option.some_or]
    rw [hafter, Option.some.injEq]
    constructor
    · rintro rfl
      exact he
    · exact fun hd => he.unique hd
  · have hnone : found.seen x = none := by
      cases hf : found.seen x with
      | none => rfl
      | some d => exact absurd ((htree r hr x).2 (IsDistance.joined ((hdepth x d).1 hf))) hx
    refine ⟨if_neg hx, if_neg hx, ?_⟩
    rw [Orientation.after_depths, hnone, Option.none_or]

theorem foldlM_orient (data : VcgPreScanData) (hnodup : allNodes.Nodup) (hends : ∀ e ∈ es, e.1 ∈ allNodes ∧ e.2 ∈ allNodes)
    {components : List (List Node)} (hcomp : AreComponents es allNodes components) :
    ∃ s, components.foldlM (orientComponent data (neighbors es) (allNodes.length + 1)) Orientation.empty = some s ∧
      ∀ c ∈ components, ∃ r ∈ c, IsSelectedRoot data c r ∧ Oriented data es c r s := by
  refine foldlM_spec (fun pre s => ∀ c ∈ pre, ∃ r ∈ c, IsSelectedRoot data c r ∧ Oriented data es c r s)
    (fun pre component post s hl hs => ?_) (by simp)
  have hmem : component ∈ components := by rw [hl]; simp
  obtain ⟨s', r, horient, hr, hsel, hori, hkeep⟩ := orientComponent_spec data hnodup hends
    (hcomp.nonempty component hmem)
    (fun x hx => (hcomp.cover x).1 (List.mem_flatten.2 ⟨component, hmem, hx⟩)) (hcomp.tree component hmem) s
  refine ⟨s', horient, fun c hc => ?_⟩
  rcases List.mem_append.1 hc with hc | hc
  · obtain ⟨r, hr, hsel, hold⟩ := hs c hc
    -- earlier components share no node with this one
    have hout : ∀ x ∈ c, x ∉ component := by
      intro x hx hx'
      have hnd := hcomp.nodup
      rw [hl, List.flatten_append, List.nodup_append] at hnd
      exact hnd.2.2 x (List.mem_flatten.2 ⟨c, hc, hx⟩) x (by simp [hx']) rfl
    refine ⟨r, hr, hsel, fun x hx => ?_, fun x hx => ?_, fun x hx d => ?_⟩
    · rw [(hkeep x (hout x hx)).1]
      exact hold.isRoot x hx
    · rw [(hkeep x (hout x hx)).2.1]
      exact hold.rooted x hx
    · rw [(hkeep x (hout x hx)).2.2]
      exact hold.depths x hx d
  · obtain rfl := List.mem_singleton.1 hc
    exact ⟨r, hr, hsel, hori⟩

theorem Oriented.isRoot_eq {component : List Node} {r : Node} {s : Orientation} (h : Oriented data es component r s)
    (hspan : IsSpanningForest data.definiteRoots es) (hr : r ∈ component) (hsel : IsSelectedRoot data component r)
    (htree : ∀ x ∈ component, ∀ y, y ∈ component ↔ Joined es x y) {x : Node} (hx : x ∈ component) :
    s.isRoot x = some (decide (x = r)) := by
  rw [h.isRoot x hx, Option.some.injEq]
  rcases hsel with hdef | ⟨hno, -⟩
  · have hany : component.any (· ∈ data.definiteRoots) = true := by simpa using ⟨r, hr, hdef⟩
    have hiff : x ∈ data.definiteRoots ↔ x = r :=
      ⟨fun hxd => hspan.definite x hxd r hdef ((htree x hx r).1 hr), fun he => he ▸ hdef⟩
    rw [hany, Bool.not_true, Bool.false_and, Bool.or_false, decide_eq_decide]
    exact hiff
  · have hany : component.any (· ∈ data.definiteRoots) = false := by simpa using hno
    rw [hany, decide_eq_false (hno x hx), Bool.false_or, Bool.not_false, Bool.true_and]

theorem IsSelectedRoot.isTreeRoot {component : List Node} {r x : Node} (h : IsSelectedRoot data component r)
    (hr : r ∈ component) (htree : ∀ y, y ∈ component ↔ Joined es x y) :
    IsTreeRoot data es allNodes x r := by
  refine ⟨(htree r).1 hr, ?_⟩
  rcases h with hdef | ⟨hno, hpot | ⟨hnopot, hle⟩⟩
  · exact .inl hdef
  · obtain ⟨priority, hmem, hbest⟩ := hpot
    refine .inr ⟨?_, .inl ⟨priority, hmem, fun p hp hj => hbest p hp ((htree p.1).2 hj)⟩⟩
    rintro ⟨d, hd, hj⟩
    exact hno d ((htree d).2 hj.symm) hd
  · refine .inr ⟨?_, .inr ⟨fun p hp hj => hnopot p hp ((htree p.1).2 hj), fun y _ hj => hle y ((htree y).2 hj)⟩⟩
    rintro ⟨d, hd, hj⟩
    exact hno d ((htree d).2 hj.symm) hd

theorem foldl_orientBranch (depths : Node → Option Nat) (rooted : Node → Option Bool) {branches : List Edge} {a b : Node}
    {da db : Nat} (ha : depths a = some da) (hb : depths b = some db) (hab : (a, b) ∈ branches)
    (honly : ∀ c, (a, c) ∈ branches → c = b) :
    branches.foldl (orientBranch depths) rooted a = some (decide (da < db)) := by
  refine foldl_inv (l := branches) (fun pre (rooted : Node → Option Bool) => (a, b) ∈ pre → rooted a = some (decide (da < db)))
    (fun pre e post rooted hl hpre hmem => ?_) (fun h => nomatch h) hab
  obtain ⟨x, y⟩ := e
  by_cases hx : x = a
  · subst hx
    obtain rfl := honly y (by rw [hl]; simp)
    simp only [orientBranch, ha, hb, Function.update_self]
  · have hin : (a, b) ∈ pre := by
      rcases List.mem_append.1 hmem with hmem | hmem
      · exact hmem
      · simp only [List.mem_singleton, Prod.mk.injEq] at hmem
        exact absurd hmem.1.symm hx
    -- another end is written, or none
    have hkeep : orientBranch depths rooted (x, y) a = rooted a := by
      cases hdx : depths x with
      | none => simp only [orientBranch, hdx]
      | some dx =>
        cases hdy : depths y with
        | none => simp only [orientBranch, hdx, hdy]
        | some dy => simp only [orientBranch, hdx, hdy, Function.update_of_ne (Ne.symm hx)]
    rw [hkeep]
    exact hpre hin

end

/-! ## The whole graph -/

theorem ends_mem_collectAllNodes (data : VcgPreScanData) (optionalEdges : List Edge) {e : Edge}
    (he : e ∈ data.branches ++ optionalEdges) :
    e.1 ∈ collectAllNodes data optionalEdges ∧ e.2 ∈ collectAllNodes data optionalEdges := by
  have hflat : ∀ x, (x = e.1 ∨ x = e.2) → x ∈ (data.branches ++ optionalEdges).flatMap fun edge => [edge.1, edge.2] :=
    fun x hx => List.mem_flatMap.2 ⟨e, he, by simpa using hx⟩
  unfold collectAllNodes
  exact ⟨List.mem_append_left _ (List.mem_append_left _ (hflat _ (.inl rfl))),
    List.mem_append_left _ (List.mem_append_left _ (hflat _ (.inr rfl)))⟩

/-- A run on required edges that pass: the edges in order, the selection, and what the trees write. -/
structure VcgRun (data : VcgPreScanData) (allNodes : List Node) (optionalEdges : List Edge) (required : VcgEdgeForest)
    (result : VcgResult) where
  ordered : List Edge
  selection : Selection
  components : List (List Node)
  oriented : Orientation
  order : orderOptionalEdgesByRootDistance data allNodes optionalEdges = some ordered
  perm : ordered.Perm optionalEdges
  select : ordered.foldlM Selection.turn ⟨required, [], []⟩ = some selection
  parts : (selection.selected ++ selection.broken).Perm optionalEdges
  spanning : IsSpanningForest data.definiteRoots (data.branches ++ selection.selected)
  breaks : ∀ e ∈ selection.broken, Breaks data.definiteRoots (data.branches ++ selection.selected) e
  trees : AreComponents (data.branches ++ selection.selected) allNodes components
  orient : components.foldlM (orientComponent data (neighbors (data.branches ++ selection.selected)) (allNodes.length + 1))
    Orientation.empty = some oriented
  roots : ∀ c ∈ components, ∃ r ∈ c, IsSelectedRoot data c r ∧ Oriented data (data.branches ++ selection.selected) c r oriented
  broken_eq : result.spanningForest.broken = selection.broken
  isRoot_eq : result.isRoot = oriented.isRoot
  rooted_eq : result.rooted = data.branches.foldl (orientBranch oriented.depths) oriented.rooted

theorem buildVcg_run {data : VcgPreScanData} {optionalEdges : List Edge} {required : VcgEdgeForest}
    (hrequired : constructRequiredEdgeForest data optionalEdges = pure required) {allNodes : List Node}
    (hnodup : allNodes.Nodup) (hnodes : ∀ x, x ∈ allNodes ↔ x ∈ collectAllNodes data optionalEdges) :
    ∃ result, buildVcg data allNodes optionalEdges required = some result ∧
      Nonempty (VcgRun data allNodes optionalEdges required result) := by
  obtain ⟨hholds, hspan, hreqnd, hreqends⟩ := constructRequiredEdgeForest_spec hrequired
  have hends : ∀ e ∈ data.branches ++ optionalEdges, e.1 ∈ allNodes ∧ e.2 ∈ allNodes := fun e he =>
    ⟨(hnodes _).2 (ends_mem_collectAllNodes data optionalEdges he).1,
      (hnodes _).2 (ends_mem_collectAllNodes data optionalEdges he).2⟩
  obtain ⟨ordered, hordered, hperm⟩ := orderOptionalEdges_spec data hnodup hends
  obtain ⟨selection, hselection, hparts, hforest, hbroken⟩ := foldlM_selection hholds hspan
    fun e he => hreqends e (List.mem_append_right _ (hperm.subset he))
  have hselected : ∀ e ∈ selection.selected, e ∈ optionalEdges := fun e he =>
    hperm.subset (hparts.subset (List.mem_append_left _ he))
  obtain ⟨unionFind, hnew, -, -⟩ := selectedSpanningForest_spec hholds hreqnd
    (fun e he => hreqends e (List.mem_append_right _ (hselected e he))) selection.broken
  have hends' : ∀ e ∈ data.branches ++ selection.selected, e.1 ∈ allNodes ∧ e.2 ∈ allNodes := by
    intro e he
    rcases List.mem_append.1 he with he | he
    · exact hends e (List.mem_append_left _ he)
    · exact hends e (List.mem_append_right _ (hselected e he))
  obtain ⟨components, hfind, hcomp⟩ := findConnectedComponents_spec hnodup hends'
  obtain ⟨oriented, hfold, horient⟩ := foldlM_orient data hnodup hends' hcomp
  by_cases hempty : allNodes = []
  · subst hempty
    -- without nodes there are no edges and no trees
    have hnone : ∀ e, e ∉ data.branches ++ optionalEdges := fun e he => nomatch (hends e he).1
    obtain ⟨hb, ho⟩ := List.append_eq_nil_iff.1 (List.eq_nil_iff_forall_not_mem.2 hnone)
    have hnil : selection.selected ++ selection.broken = [] := (ho ▸ hparts.trans hperm).eq_nil
    have hcomponents : components = [] := by
      obtain rfl := Option.some.inj hfind
      rfl
    subst hcomponents
    obtain rfl := Option.some.inj hfold
    exact ⟨⟨fun _ => none, fun _ => none, ⟨⟨[], [], []⟩, []⟩⟩, rfl,
      ⟨ordered, selection, [], Orientation.empty, hordered, hperm, hselection, hparts.trans hperm, hforest, hbroken, hcomp,
        rfl, horient, (List.append_eq_nil_iff.1 hnil).2.symm, rfl, by rw [hb]; rfl⟩⟩
  · refine ⟨⟨oriented.isRoot, data.branches.foldl (orientBranch oriented.depths) oriented.rooted,
      ⟨unionFind, selection.broken⟩⟩, ?_, ⟨ordered, selection, components, oriented, hordered, hperm, hselection,
        hparts.trans hperm, hforest, hbroken, hcomp, hfold, horient, rfl, rfl, rfl⟩⟩
    unfold buildVcg selectOptionalEdges
    simp only [List.isEmpty_iff, if_neg hempty, hordered, hselection, hnew, hfind, hfold, Option.bind_eq_bind,
      Option.bind_some]
    rfl

/-- For required edges that pass, the graph gets a spanning forest with as few broken edges as it admits, one root
for each tree, and branches oriented by their distances from it. -/
theorem buildVcg_spanning (data : VcgPreScanData) (optionalEdges : List Edge) (required : VcgEdgeForest)
    (hrequired : constructRequiredEdgeForest data optionalEdges = pure required) (allNodes : List Node)
    (hnodup : allNodes.Nodup) (hnodes : ∀ x, x ∈ allNodes ↔ x ∈ collectAllNodes data optionalEdges) :
    ∃ result selected, buildVcg data allNodes optionalEdges required = some result ∧
      (selected ++ result.spanningForest.broken).Perm optionalEdges ∧
      IsSpanningForest data.definiteRoots (data.branches ++ selected) ∧
      (∀ e ∈ result.spanningForest.broken, Breaks data.definiteRoots (data.branches ++ selected) e) ∧
      (∀ x ∈ allNodes, ∃ r, IsTreeRoot data (data.branches ++ selected) allNodes x r ∧
        ∀ y, Joined (data.branches ++ selected) x y → result.isRoot y = some (decide (y = r))) ∧
      ∀ a b, (a, b) ∈ data.branches → (∀ c, (a, c) ∈ data.branches → c = b) →
        ∃ r da db, result.isRoot r = some true ∧ IsDistance (neighbors (data.branches ++ selected)) r a da ∧
          IsDistance (neighbors (data.branches ++ selected)) r b db ∧
          result.rooted a = some (decide (da < db)) := by
  obtain ⟨result, hresult, ⟨run⟩⟩ := buildVcg_run hrequired hnodup hnodes
  refine ⟨result, run.selection.selected, hresult, run.broken_eq ▸ run.parts, run.spanning, run.broken_eq ▸ run.breaks,
    fun x hx => ?_, fun a b hab honly => ?_⟩
  · obtain ⟨c, hc, hxc⟩ := List.mem_flatten.1 ((run.trees.cover x).2 hx)
    obtain ⟨r, hr, hsel, hori⟩ := run.roots c hc
    have htree := run.trees.tree c hc
    refine ⟨r, hsel.isTreeRoot hr (htree x hxc), fun y hy => ?_⟩
    rw [run.isRoot_eq]
    exact hori.isRoot_eq run.spanning hr hsel htree ((htree x hxc y).2 hy)
  · have hnode : a ∈ allNodes :=
      (hnodes a).2 (ends_mem_collectAllNodes data optionalEdges (List.mem_append_left _ hab)).1
    obtain ⟨c, hc, hac⟩ := List.mem_flatten.1 ((run.trees.cover a).2 hnode)
    obtain ⟨r, hr, hsel, hori⟩ := run.roots c hc
    have htree := run.trees.tree c hc
    have hbc : b ∈ c := (htree a hac b).2 (.of_mem (List.mem_append_left _ hab))
    obtain ⟨da, hda⟩ := exists_distance ((htree r hr a).1 hac)
    obtain ⟨db, hdb⟩ := exists_distance ((htree r hr b).1 hbc)
    refine ⟨r, da, db, ?_, hda, hdb, ?_⟩
    · rw [run.isRoot_eq]
      exact (hori.isRoot_eq run.spanning hr hsel htree hr).trans (by rw [decide_eq_true rfl])
    · rw [run.rooted_eq]
      exact foldl_orientBranch run.oriented.depths run.oriented.rooted ((hori.depths a hac da).2 hda)
        ((hori.depths b hbc db).2 hdb) hab honly

/-! ## A loop with two roots -/

/-- Two branches, one below a definite root, in a loop of optional edges. -/
def loopData : VcgPreScanData where
  definiteRoots := ["r"]
  branches := [("r", "a"), ("c", "b")]
  branchSpans := [⟨1, 0, 4⟩, ⟨1, 5, 9⟩]
  potentialRoots := [("z", 3)]

def loopEdges : List Edge := [("a", "b"), ("b", "r"), ("a", "a"), ("c", "d")]

/-- The forest of the required edges: `a b c d r` by index. -/
def loopRequired : VcgEdgeForest := ⟨["a", "b", "c", "d", "r"], [0, 1, 1, 3, 0], [true, false, false, false, true]⟩

theorem buildVcg_loop :
    ∃ result selected, buildVcg loopData ["z", "d", "a", "b", "c", "r"] loopEdges loopRequired = some result ∧
      (selected ++ result.spanningForest.broken).Perm loopEdges ∧
      IsSpanningForest loopData.definiteRoots (loopData.branches ++ selected) := by
  obtain ⟨result, selected, h, hperm, hspan, -⟩ := buildVcg_spanning loopData loopEdges loopRequired rfl
    ["z", "d", "a", "b", "c", "r"] (by decide) (fun x => by
      simp [collectAllNodes, loopData, loopEdges]
      tauto)
  exact ⟨result, selected, h, hperm, hspan⟩

end Rumoca.Flatten
