import Rumoca.Flatten.VcgOrientation
/-!
# The order of the connect statements

The optional edges may come in any order and either way round, and the nodes
may be visited in any order: every step of `buildVcg` depends on the edges as
unordered pairs only. The sort key holds the normalised pair last, so a tie is
between two copies of one pair, and the forest treats both alike.
-/

namespace Rumoca.Flatten

open Rumoca.Lib Rumoca.Lib.Search

/-! ## Edges as unordered pairs -/

def normal (e : Edge) : Edge := normalizeEdgeKey e.1 e.2

/-- The edges in another order, some of them the other way round. -/
def Rearranged (es es' : List Edge) : Prop := ∃ fs, List.Forall₂ (fun e f => f = e ∨ f = e.swap) es fs ∧ fs.Perm es'

def SamePairs (es es' : List Edge) : Prop := (es.map normal).Perm (es'.map normal)

theorem normal_swap (e : Edge) : normal e.swap = normal e := by
  obtain ⟨a, b⟩ := e
  simp only [normal, normalizeEdgeKey, Prod.swap]
  split_ifs with h₁ h₂ h₂
  · rw [le_antisymm h₁ h₂]
  · rfl
  · rfl
  · exact absurd (le_of_not_ge h₁) h₂

theorem normal_eq (e : Edge) : normal e = e ∨ normal e = e.swap := by
  simp only [normal, normalizeEdgeKey]
  split_ifs
  · exact .inl rfl
  · exact .inr rfl

theorem normal_normal (e : Edge) : normal (normal e) = normal e := by
  rcases normal_eq e with h | h
  · rw [h, h]
  · rw [h, normal_swap, h]

theorem normal_inj {e f : Edge} (h : normal e = normal f) : f = e ∨ f = e.swap := by
  rcases normal_eq e with he | he <;> rcases normal_eq f with hf | hf <;> rw [he, hf] at h
  · exact .inl h.symm
  · exact .inr (by rw [h, Prod.swap_swap])
  · exact .inr h.symm
  · exact .inl (Prod.swap_injective h).symm

variable {es es' : List Edge}

theorem Rearranged.samePairs (h : Rearranged es es') : SamePairs es es' := by
  obtain ⟨fs, hfs, hperm⟩ := h
  have hmap : es.map normal = fs.map normal := by
    clear hperm
    induction hfs with
    | nil => rfl
    | @cons e f es fs hef _ ih =>
      rw [List.map_cons, List.map_cons, ih]
      rcases hef with rfl | rfl
      · rfl
      · rw [normal_swap]
  unfold SamePairs
  rw [hmap]
  exact hperm.map normal

theorem SamePairs.symm (h : SamePairs es es') : SamePairs es' es := List.Perm.symm h

theorem SamePairs.append {fs fs' : List Edge} (h : SamePairs es es') (h' : SamePairs fs fs') :
    SamePairs (es ++ fs) (es' ++ fs') := by
  unfold SamePairs
  rw [List.map_append, List.map_append]
  exact List.Perm.append h h'

theorem SamePairs.refl (es : List Edge) : SamePairs es es := List.Perm.refl _

theorem SamePairs.mem (h : SamePairs es es') {e : Edge} (he : e ∈ es) : e ∈ es' ∨ e.swap ∈ es' := by
  obtain ⟨f, hf, heq⟩ := List.mem_map.1 (h.subset (List.mem_map_of_mem he))
  rcases normal_inj heq with rfl | rfl
  · exact .inl hf
  · exact .inr (by rwa [Prod.swap_swap])

theorem SamePairs.either (h : SamePairs es es') (a b : Node) :
    ((a, b) ∈ es ∨ (b, a) ∈ es) ↔ ((a, b) ∈ es' ∨ (b, a) ∈ es') := by
  have key : ∀ {es es'}, SamePairs es es' → ((a, b) ∈ es ∨ (b, a) ∈ es) → ((a, b) ∈ es' ∨ (b, a) ∈ es') := by
    rintro es es' h (he | he)
    · exact h.mem he
    · exact (h.mem he).symm
  exact ⟨key h, key h.symm⟩

theorem SamePairs.joined (h : SamePairs es es') {x y : Node} : Lib.Joined es x y ↔ Lib.Joined es' x y :=
  eqvGen_congr_symm (fun a b => h.either a b) x y

theorem SamePairs.neighbors (h : SamePairs es es') (x y : Node) : y ∈ neighbors es x ↔ y ∈ neighbors es' x := by
  rw [mem_neighbors, mem_neighbors]
  exact h.either x y

/-! ## Walks and distances -/

theorem walk_congr {adj adj' : Node → List Node} (h : ∀ x y, y ∈ adj x ↔ y ∈ adj' x) {x y : Node} {k : Nat} :
    Walk adj x k y ↔ Walk adj' x k y := by
  have key : ∀ {adj adj' : Node → List Node}, (∀ x y, y ∈ adj x ↔ y ∈ adj' x) → Walk adj x k y → Walk adj' x k y := by
    intro adj adj' h hw
    induction hw with
    | refl => exact .refl
    | tail _ hz ih => exact ih.tail ((h _ _).1 hz)
  exact ⟨key h, key fun x y => (h x y).symm⟩

theorem isDistance_congr {adj adj' : Node → List Node} (h : ∀ x y, y ∈ adj x ↔ y ∈ adj' x) {x y : Node} {d : Nat} :
    IsDistance adj x y d ↔ IsDistance adj' x y d := by
  simp only [IsDistance, walk_congr h]

theorem isNearest_congr {adj adj' : Node → List Node} (h : ∀ x y, y ∈ adj x ↔ y ∈ adj' x) {seeds seeds' : List Node}
    (hseeds : ∀ x, x ∈ seeds ↔ x ∈ seeds') {x : Node} {d : Nat} : IsNearest adj seeds x d ↔ IsNearest adj' seeds' x d := by
  simp only [IsNearest, walk_congr h, hseeds]

theorem option_ext {f g : Node → Option Nat} {P : Node → Nat → Prop} (hf : ∀ x d, f x = some d ↔ P x d)
    (hg : ∀ x d, g x = some d ↔ P x d) : f = g :=
  funext fun x => Option.ext fun d => (hf x d).trans (hg x d).symm

/-! ## Roots -/

section
variable {data : VcgPreScanData} {allNodes allNodes' : List Node}

theorem IsTreeRoot.unique {x r r' : Node} (hone : ∀ d ∈ data.definiteRoots, ∀ d' ∈ data.definiteRoots,
    Lib.Joined es x d → Lib.Joined es x d' → d = d') (hr : IsTreeRoot data es allNodes x r)
    (hr' : IsTreeRoot data es allNodes x r') (hin : r ∈ allNodes) (hin' : r' ∈ allNodes) : r = r' := by
  obtain ⟨hj, hdef | ⟨hnone, hrest⟩⟩ := hr
  · obtain ⟨hj', hdef' | ⟨hnone', -⟩⟩ := hr'
    · exact hone r hdef r' hdef' hj hj'
    · exact absurd ⟨r, hdef, hj.symm⟩ hnone'
  · obtain ⟨hj', hdef' | ⟨-, hrest'⟩⟩ := hr'
    · exact absurd ⟨r', hdef', hj'.symm⟩ hnone
    · rcases hrest with ⟨p, hp, hbest⟩ | ⟨hnopot, hleast⟩ <;> rcases hrest' with ⟨p', hp', hbest'⟩ | ⟨hnopot', hleast'⟩
      · have h₁ := hbest (r', p') hp' hj'
        have h₂ := hbest' (r, p) hp hj
        simp only at h₁ h₂
        rcases h₁ with h₁ | ⟨h₁, hle⟩ <;> rcases h₂ with h₂ | ⟨h₂, hle'⟩
        · omega
        · omega
        · omega
        · exact le_antisymm hle hle'
      · exact absurd hj (hnopot' (r, p) hp)
      · exact absurd hj' (hnopot (r', p') hp')
      · exact le_antisymm (hleast r' hin' hj') (hleast' r hin hj)

theorem isTreeRoot_congr (h : SamePairs es es') (hall : ∀ x, x ∈ allNodes ↔ x ∈ allNodes') {x r : Node} :
    IsTreeRoot data es allNodes x r ↔ IsTreeRoot data es' allNodes' x r := by
  simp only [IsTreeRoot, HoldsDefinite, h.joined, hall]

theorem mem_componentSeeds {components : List (List Node)} (hcomp : AreComponents es allNodes components)
    {component : List Node} (hc : component ∈ components) {own : List Node}
    (hown : componentSeeds data component = some own) {x : Node} :
    x ∈ own ↔ x ∈ component ∧ IsTreeRoot data es allNodes x x := by
  have htree := hcomp.tree component hc
  have hin : ∀ y ∈ component, y ∈ allNodes := fun y hy => (hcomp.cover y).1 (List.mem_flatten.2 ⟨component, hc, hy⟩)
  unfold componentSeeds at hown
  by_cases hnone : (component.filter (· ∈ data.definiteRoots)).isEmpty
  · obtain ⟨r, hr, hselect, hsel⟩ := selectRoot_spec data (hcomp.nonempty component hc)
    simp only [if_pos hnone, hselect, Option.bind_eq_bind, Option.bind_some, Option.pure_def, Option.some.injEq] at hown
    subst hown
    have hno : ∀ x ∈ component, ∀ d ∈ data.definiteRoots, ¬ Lib.Joined es x d := by
      intro x hx d hd hj
      have : d ∈ component.filter (· ∈ data.definiteRoots) :=
        List.mem_filter.2 ⟨(htree x hx d).2 hj, by simpa using hd⟩
      rw [List.isEmpty_iff.1 hnone] at this
      cases this
    rw [List.mem_singleton]
    constructor
    · rintro rfl
      exact ⟨hr, hsel.isTreeRoot hr (htree x hr)⟩
    · rintro ⟨hx, hself⟩
      exact hself.unique (fun d hd _ _ hj => absurd hj (hno x hx d hd)) (hsel.isTreeRoot hr (htree x hx)) (hin x hx)
        (hin r hr)
  · simp only [if_neg hnone, Option.some.injEq] at hown
    subst hown
    obtain ⟨d, hd⟩ := List.exists_mem_of_ne_nil _ (fun h => hnone (List.isEmpty_iff.2 h))
    obtain ⟨hdc, hdef⟩ := List.mem_filter.1 hd
    rw [List.mem_filter]
    refine and_congr_right fun hx => ⟨fun hxdef => ⟨.refl _ _, .inl (by simpa using hxdef)⟩, ?_⟩
    · rintro ⟨-, hxdef | ⟨hfree, -⟩⟩
      · simpa using hxdef
      · exact absurd ⟨d, by simpa using hdef, (htree d hdc x).1 hx⟩ hfree

variable (data) in
theorem rootDistances_spec (hnodup : allNodes.Nodup) (hends : ∀ e ∈ es, e.1 ∈ allNodes ∧ e.2 ∈ allNodes) :
    ∃ distance seeds, rootDistances data allNodes (neighbors es) = some distance ∧
      (∀ x, x ∈ seeds ↔ x ∈ allNodes ∧ IsTreeRoot data es allNodes x x) ∧
      ∀ x d, distance x = some d ↔ IsNearest (neighbors es) seeds x d := by
  obtain ⟨components, hfind, hcomp⟩ := findConnectedComponents_spec hnodup hends
  obtain ⟨seeds, hseeds, hnd, hsub⟩ := componentSeeds_spec data hcomp.nodup hcomp.nonempty
  have hin : ∀ x ∈ seeds.flatten, x ∈ allNodes.toFinset := fun x hx =>
    List.mem_toFinset.2 ((hcomp.cover x).1 (hsub x hx))
  obtain ⟨r, hr, hnearest⟩ := run_nearest (neighbors_inside hends) hnd hin (card_lt hnodup)
  refine ⟨r.seen, seeds.flatten, ?_, fun x => ?_, hnearest⟩
  · unfold rootDistances
    simp only [hfind, hseeds, hr, Option.bind_eq_bind, Option.bind_some]
    rfl
  · rw [List.mem_flatten]
    constructor
    · rintro ⟨own, hown, hx⟩
      obtain ⟨c, hc, hrun⟩ := mapM_mem hseeds own hown
      obtain ⟨hxc, hroot⟩ := (mem_componentSeeds hcomp hc hrun).1 hx
      exact ⟨(hcomp.cover x).1 (List.mem_flatten.2 ⟨c, hc, hxc⟩), hroot⟩
    · rintro ⟨hx, hroot⟩
      obtain ⟨c, hc, hxc⟩ := List.mem_flatten.1 ((hcomp.cover x).2 hx)
      obtain ⟨own, hown, hrun⟩ := mapM_forall hseeds c hc
      exact ⟨own, hown, (mem_componentSeeds hcomp hc hrun).2 ⟨hxc, hroot⟩⟩

variable (data) in
theorem rootDistances_congr (h : SamePairs es es') (hnodup : allNodes.Nodup) (hnodup' : allNodes'.Nodup)
    (hall : ∀ x, x ∈ allNodes ↔ x ∈ allNodes') (hends : ∀ e ∈ es, e.1 ∈ allNodes ∧ e.2 ∈ allNodes)
    (hends' : ∀ e ∈ es', e.1 ∈ allNodes' ∧ e.2 ∈ allNodes') :
    ∃ distance, rootDistances data allNodes (neighbors es) = some distance ∧
      rootDistances data allNodes' (neighbors es') = some distance := by
  obtain ⟨distance, seeds, hrun, hseeds, hspec⟩ := rootDistances_spec data hnodup hends
  obtain ⟨distance', seeds', hrun', hseeds', hspec'⟩ := rootDistances_spec data hnodup' hends'
  have hsame : ∀ x, x ∈ seeds' ↔ x ∈ seeds := fun x => by rw [hseeds, hseeds', hall, isTreeRoot_congr h hall]
  have heq : distance' = distance := option_ext
    (fun x d => (hspec' x d).trans (isNearest_congr (fun x y => (h.neighbors x y).symm) hsame)) hspec
  exact ⟨distance, hrun, heq ▸ hrun'⟩

end

/-! ## The order -/

theorem edgeKey_normal (distance : Node → Option Nat) (e : Edge) : edgeKey distance (normal e) = edgeKey distance e := by
  rcases normal_eq e with h | h
  · rw [h]
  · have hn : normalizeEdgeKey e.2 e.1 = normalizeEdgeKey e.1 e.2 := normal_swap e
    rw [h]
    unfold edgeKey
    simp only [Prod.fst_swap, Prod.snd_swap, hn, min_comm, max_comm]

theorem normal_of_edgeKey {distance : Node → Option Nat} {e f : Edge} (h : edgeKey distance e = edgeKey distance f) :
    normal e = normal f := by
  have h₁ := congrArg ofLex h
  have h₂ := congrArg ofLex (Prod.mk.inj h₁).2
  exact congrArg ofLex (Prod.mk.inj h₂).2

theorem order_congr {distance : Node → Option Nat} (h : SamePairs es es') :
    (es.insertionSort fun e f => edgeKey distance e ≤ edgeKey distance f).map normal =
      (es'.insertionSort fun e f => edgeKey distance e ≤ edgeKey distance f).map normal := by
  have hsorted : ∀ es : List Edge, ((es.insertionSort fun e f => edgeKey distance e ≤ edgeKey distance f).map normal).Pairwise
      fun p q => edgeKey distance p ≤ edgeKey distance q := by
    intro es
    rw [List.pairwise_map]
    simp only [edgeKey_normal]
    have : Std.Total fun e f : Edge => edgeKey distance e ≤ edgeKey distance f := ⟨fun e f => le_total _ _⟩
    have : IsTrans Edge fun e f => edgeKey distance e ≤ edgeKey distance f := ⟨fun _ _ _ => le_trans⟩
    exact List.pairwise_insertionSort _ es
  have hnormal : ∀ (es : List Edge), ∀ p ∈ (es.insertionSort fun e f => edgeKey distance e ≤ edgeKey distance f).map normal,
      normal p = p := by
    intro es p hp
    obtain ⟨e, -, rfl⟩ := List.mem_map.1 hp
    exact normal_normal e
  refine List.Perm.eq_of_pairwise (fun p q hp hq hpq hqp => ?_) (hsorted es) (hsorted es') ?_
  · rw [← hnormal es p hp, ← hnormal es' q hq]
    exact normal_of_edgeKey (le_antisymm hpq hqp)
  · exact ((List.perm_insertionSort _ es).map normal).trans (h.trans ((List.perm_insertionSort _ es').map normal).symm)

/-! ## The required forest -/

theorem Rearranged.ends (h : Rearranged es es') (data : VcgPreScanData) :
    ((data.branches ++ es).flatMap fun (lhs, rhs) => [lhs, rhs]).Perm
      ((data.branches ++ es').flatMap fun (lhs, rhs) => [lhs, rhs]) := by
  obtain ⟨fs, hfs, hperm⟩ := h
  rw [List.flatMap_append, List.flatMap_append]
  refine List.Perm.append_left _ (List.Perm.trans ?_ (hperm.flatMap_right _))
  clear hperm
  induction hfs with
  | nil => exact .refl _
  | @cons e f es fs hef _ ih =>
    rw [List.flatMap_cons, List.flatMap_cons]
    refine List.Perm.append ?_ ih
    rcases hef with rfl | rfl
    · exact .refl _
    · exact .swap _ _ _

theorem constructRequiredEdgeForest_congr {data : VcgPreScanData} (h : Rearranged es es') :
    constructRequiredEdgeForest data es = constructRequiredEdgeForest data es' := by
  have hsame : VcgEdgeForest.newEmpty data.definiteRoots data.branches es =
      VcgEdgeForest.newEmpty data.definiteRoots data.branches es' := by
    have hsort := (h.ends data).append_right data.definiteRoots
    have heq := List.Perm.eq_of_pairwise (fun a b _ _ => le_antisymm) (List.pairwise_insertionSort (· ≤ ·) _)
      (List.pairwise_insertionSort (· ≤ ·) _)
      ((List.perm_insertionSort (· ≤ ·) _).trans (hsort.trans (List.perm_insertionSort (· ≤ ·) _).symm))
    unfold VcgEdgeForest.newEmpty
    simp only [heq]
  unfold constructRequiredEdgeForest
  rw [hsame]

/-! ## The selection -/

theorem breaks_congr {definite : List Node} (h : SamePairs es es') {e e' : Edge} (he : normal e = normal e') :
    Breaks definite es e ↔ Breaks definite es' e' := by
  have hdef : ∀ x, HoldsDefinite definite es x ↔ HoldsDefinite definite es' x := fun x => by
    simp only [HoldsDefinite, h.joined]
  rcases normal_inj he with rfl | rfl
  · simp only [Breaks, h.joined, hdef]
  · simp only [Breaks, h.joined, hdef, Prod.fst_swap, Prod.snd_swap]
    exact or_congr ⟨fun hj => hj.symm, fun hj => hj.symm⟩ and_comm

/-- Two runs on the same pairs have taken and broken the same pairs. -/
structure Alike (definite : List Node) (branches : List Edge) (nodes : List Node) (s s' : Selection) : Prop where
  nodes : s.forest.nodes = nodes ∧ s'.forest.nodes = nodes
  holds : s.forest.Holds definite (branches ++ s.selected) ∧ s'.forest.Holds definite (branches ++ s'.selected)
  selected : s.selected.map normal = s'.selected.map normal
  broken : s.broken.map normal = s'.broken.map normal

theorem Alike.samePairs {definite : List Node} {branches : List Edge} {nodes : List Node} {s s' : Selection}
    (h : Alike definite branches nodes s s') : SamePairs (branches ++ s.selected) (branches ++ s'.selected) := by
  refine (SamePairs.refl branches).append ?_
  unfold SamePairs
  rw [h.selected]

theorem Alike.turn {definite : List Node} {branches : List Edge} {nodes : List Node} {s s' : Selection}
    (h : Alike definite branches nodes s s') {e e' : Edge} (he : normal e = normal e') (hin : e.1 ∈ nodes ∧ e.2 ∈ nodes)
    {t t' : Selection} (ht : Selection.turn s e = some t) (ht' : Selection.turn s' e' = some t') :
    Alike definite branches nodes t t' := by
  have hin' : e'.1 ∈ nodes ∧ e'.2 ∈ nodes := by
    rcases normal_inj he with rfl | rfl
    · exact hin
    · exact hin.symm
  obtain ⟨forest, rejected, hreject, hnodes, hiff, hholds⟩ := VcgEdgeForest.rejectOptionalEdge_spec h.holds.1 (e := e)
    (h.nodes.1 ▸ hin.1) (h.nodes.1 ▸ hin.2)
  obtain ⟨forest', rejected', hreject', hnodes', hiff', hholds'⟩ := VcgEdgeForest.rejectOptionalEdge_spec h.holds.2 (e := e')
    (h.nodes.2 ▸ hin'.1) (h.nodes.2 ▸ hin'.2)
  obtain rfl : rejected = rejected' := by
    rw [Bool.eq_iff_iff, hiff, hiff']
    exact breaks_congr h.samePairs he
  simp only [Selection.turn, hreject, Option.bind_eq_bind, Option.bind_some, Option.pure_def, Option.some.injEq] at ht
  simp only [Selection.turn, hreject', Option.bind_eq_bind, Option.bind_some, Option.pure_def, Option.some.injEq] at ht'
  subst ht ht'
  cases rejected with
  | true =>
    refine ⟨⟨hnodes.trans h.nodes.1, hnodes'.trans h.nodes.2⟩, ⟨hholds, hholds'⟩, h.selected, ?_⟩
    simp only [if_true, List.map_append, h.broken, List.map_singleton, he]
  | false =>
    simp only [Bool.false_eq_true, if_false, List.append_assoc] at hholds hholds' ⊢
    refine ⟨⟨hnodes.trans h.nodes.1, hnodes'.trans h.nodes.2⟩, ⟨hholds, hholds'⟩, ?_, h.broken⟩
    simp only [List.map_append, h.selected, List.map_singleton, he]

theorem Alike.run {definite : List Node} {branches : List Edge} {nodes : List Node} {ordered ordered' : List Edge}
    (hordered : ordered.map normal = ordered'.map normal) (hin : ∀ e ∈ ordered, e.1 ∈ nodes ∧ e.2 ∈ nodes)
    {s s' r r' : Selection} (h : Alike definite branches nodes s s') (hr : ordered.foldlM Selection.turn s = some r)
    (hr' : ordered'.foldlM Selection.turn s' = some r') : Alike definite branches nodes r r' := by
  induction ordered generalizing ordered' s s' with
  | nil =>
    obtain rfl := List.map_eq_nil_iff.1 hordered.symm
    obtain rfl := Option.some.inj hr
    obtain rfl := Option.some.inj hr'
    exact h
  | cons e ordered ih =>
    cases ordered' with
    | nil => cases hordered
    | cons e' ordered' =>
      rw [List.map_cons, List.map_cons, List.cons.injEq] at hordered
      rw [List.foldlM_cons] at hr hr'
      obtain ⟨t, ht, hr⟩ := Option.bind_eq_some_iff.1 hr
      obtain ⟨t', ht', hr'⟩ := Option.bind_eq_some_iff.1 hr'
      exact ih hordered.2 (fun f hf => hin f (by simp [hf])) (h.turn hordered.1 (hin e (by simp)) ht ht') hr hr'

/-! ## The orientation -/

section
variable {data : VcgPreScanData} {allNodes allNodes' : List Node}

theorem orient_outside (hnodup : allNodes.Nodup) (hends : ∀ e ∈ es, e.1 ∈ allNodes ∧ e.2 ∈ allNodes)
    {components : List (List Node)} (hcomp : AreComponents es allNodes components) {s : Orientation}
    (hs : components.foldlM (orientComponent data (neighbors es) (allNodes.length + 1)) Orientation.empty = some s) (x : Node) :
    (x ∉ components.flatten → s.isRoot x = none ∧ s.rooted x = none ∧ s.depths x = none) ∧
      (x ∈ components.flatten → s.rooted x = some false) := by
  refine foldlM_inv (fun (pre : List (List Node)) (s : Orientation) =>
    (x ∉ pre.flatten → s.isRoot x = none ∧ s.rooted x = none ∧ s.depths x = none) ∧
      (x ∈ pre.flatten → s.rooted x = some false)) (fun pre component post s s' hl hs hturn => ?_)
    ⟨fun _ => ⟨rfl, rfl, rfl⟩, fun h => nomatch h⟩ hs
  have hmem : component ∈ components := by rw [hl]; simp
  obtain ⟨s'', r, hrun, hr, -, -, hkeep⟩ := orientComponent_spec data hnodup hends (hcomp.nonempty component hmem)
    (fun x hx => (hcomp.cover x).1 (List.mem_flatten.2 ⟨component, hmem, hx⟩)) (hcomp.tree component hmem) s
  obtain rfl : s'' = s' := Option.some.inj (hrun.symm.trans hturn)
  rw [List.flatten_append, List.flatten_singleton, List.mem_append, not_or]
  by_cases hx : x ∈ component
  · refine ⟨fun h => absurd hx h.2, fun _ => ?_⟩
    obtain ⟨r, hroot, hturn⟩ := Option.bind_eq_some_iff.1 hturn
    obtain ⟨depths, hdepths, hturn⟩ := Option.bind_eq_some_iff.1 hturn
    obtain ⟨found, hfound, hdepths⟩ := Option.bind_eq_some_iff.1 hdepths
    rw [Option.some.inj (hrun.symm.trans (orientComponent_eq hroot hfound s))]
    exact if_pos hx
  · obtain ⟨h₁, h₂, h₃⟩ := hkeep x hx
    rw [h₁, h₂, h₃, or_iff_left hx]
    exact ⟨fun h => hs.1 h.1, hs.2⟩

end

/-! ## Two runs -/

section
variable {data : VcgPreScanData} {allNodes allNodes' : List Node} {optionalEdges optionalEdges' : List Edge}
  {required : VcgEdgeForest} {result result' : VcgResult}

theorem Rearranged.mem_collectAllNodes (h : Rearranged optionalEdges optionalEdges') (x : Node) :
    x ∈ collectAllNodes data optionalEdges ↔ x ∈ collectAllNodes data optionalEdges' := by
  unfold collectAllNodes
  rw [List.mem_append, List.mem_append, List.mem_append, List.mem_append, (h.ends data).mem_iff]

theorem VcgRun.ends (run : VcgRun data allNodes optionalEdges required result)
    (hends : ∀ e ∈ data.branches ++ optionalEdges, e.1 ∈ allNodes ∧ e.2 ∈ allNodes) :
    ∀ e ∈ data.branches ++ run.selection.selected, e.1 ∈ allNodes ∧ e.2 ∈ allNodes := by
  intro e he
  rcases List.mem_append.1 he with he | he
  · exact hends e (List.mem_append_left _ he)
  · exact hends e (List.mem_append_right _ (run.parts.subset (List.mem_append_left _ he)))

theorem oriented_congr (run : VcgRun data allNodes optionalEdges required result)
    (run' : VcgRun data allNodes' optionalEdges' required result') (hnodup : allNodes.Nodup) (hnodup' : allNodes'.Nodup)
    (hall : ∀ x, x ∈ allNodes ↔ x ∈ allNodes')
    (hends : ∀ e ∈ data.branches ++ optionalEdges, e.1 ∈ allNodes ∧ e.2 ∈ allNodes)
    (hends' : ∀ e ∈ data.branches ++ optionalEdges', e.1 ∈ allNodes' ∧ e.2 ∈ allNodes')
    (h : SamePairs (data.branches ++ run.selection.selected) (data.branches ++ run'.selection.selected)) (x : Node) :
    run.oriented.isRoot x = run'.oriented.isRoot x ∧ run.oriented.rooted x = run'.oriented.rooted x ∧
      run.oriented.depths x = run'.oriented.depths x := by
  have hout := orient_outside hnodup (run.ends hends) run.trees run.orient x
  have hout' := orient_outside hnodup' (run'.ends hends') run'.trees run'.orient x
  by_cases hx : x ∈ allNodes
  · have hflat := (run.trees.cover x).2 hx
    have hflat' := (run'.trees.cover x).2 ((hall x).1 hx)
    obtain ⟨c, hc, hxc⟩ := List.mem_flatten.1 hflat
    obtain ⟨c', hc', hxc'⟩ := List.mem_flatten.1 hflat'
    obtain ⟨r, hr, hsel, hori⟩ := run.roots c hc
    obtain ⟨r', hr', hsel', hori'⟩ := run'.roots c' hc'
    have htree := run.trees.tree c hc
    have htree' := run'.trees.tree c' hc'
    have hin : r ∈ allNodes := (run.trees.cover r).1 (List.mem_flatten.2 ⟨c, hc, hr⟩)
    have hin' : r' ∈ allNodes := (hall r').2 ((run'.trees.cover r').1 (List.mem_flatten.2 ⟨c', hc', hr'⟩))
    have hroot : IsTreeRoot data (data.branches ++ run.selection.selected) allNodes x r := hsel.isTreeRoot hr (htree x hxc)
    have hroot' : IsTreeRoot data (data.branches ++ run.selection.selected) allNodes x r' :=
      (isTreeRoot_congr h hall).2 (hsel'.isTreeRoot hr' (htree' x hxc'))
    obtain rfl : r = r' := hroot.unique
      (fun d hd d' hd' hj hj' => run.spanning.definite d hd d' hd' (hj.symm.trans hj')) hroot' hin hin'
    refine ⟨?_, (hout.2 hflat).trans (hout'.2 hflat').symm, ?_⟩
    · rw [hori.isRoot_eq run.spanning hr hsel htree hxc, hori'.isRoot_eq run'.spanning hr' hsel' htree' hxc']
    · refine Option.ext fun d => ?_
      rw [hori.depths x hxc d, hori'.depths x hxc' d]
      exact isDistance_congr h.neighbors
  · obtain ⟨h₁, h₂, h₃⟩ := hout.1 fun hmem => hx ((run.trees.cover x).1 hmem)
    obtain ⟨h₁', h₂', h₃'⟩ := hout'.1 fun hmem => hx ((hall x).2 ((run'.trees.cover x).1 hmem))
    rw [h₁, h₂, h₃, h₁', h₂', h₃']
    exact ⟨rfl, rfl, rfl⟩

theorem selection_congr (hrequired : constructRequiredEdgeForest data optionalEdges = pure required)
    (run : VcgRun data allNodes optionalEdges required result)
    (run' : VcgRun data allNodes' optionalEdges' required result') (hnodup : allNodes.Nodup) (hnodup' : allNodes'.Nodup)
    (hall : ∀ x, x ∈ allNodes ↔ x ∈ allNodes')
    (hends : ∀ e ∈ data.branches ++ optionalEdges, e.1 ∈ allNodes ∧ e.2 ∈ allNodes)
    (hends' : ∀ e ∈ data.branches ++ optionalEdges', e.1 ∈ allNodes' ∧ e.2 ∈ allNodes')
    (h : SamePairs optionalEdges optionalEdges') :
    Alike data.definiteRoots data.branches required.nodes run.selection run'.selection := by
  obtain ⟨hholds, -, -, hreqends⟩ := constructRequiredEdgeForest_spec hrequired
  obtain ⟨distance, hdistance, hdistance'⟩ :=
    rootDistances_congr data ((SamePairs.refl data.branches).append h) hnodup hnodup' hall hends hends'
  have horder := run.order
  have horder' := run'.order
  unfold orderOptionalEdgesByRootDistance at horder horder'
  rw [hdistance, Option.bind_eq_bind, Option.bind_some] at horder
  rw [hdistance', Option.bind_eq_bind, Option.bind_some] at horder'
  have hordered : run.ordered.map normal = run'.ordered.map normal := by
    rw [← Option.some.inj horder, ← Option.some.inj horder']
    exact order_congr h
  refine Alike.run hordered (fun e he => hreqends e (List.mem_append_right _ (run.perm.subset he))) ?_ run.select run'.select
  exact ⟨⟨rfl, rfl⟩, ⟨by rwa [List.append_nil], by rwa [List.append_nil]⟩, rfl, rfl⟩

end

/-- For required edges that pass, the optional edges in any order and either way
round give the same roots, the same orientation of the branches, and the same
pairs selected and broken. -/
theorem buildVcg_rearranged (data : VcgPreScanData) (optionalEdges optionalEdges' : List Edge) (required : VcgEdgeForest)
    (hrearranged : Rearranged optionalEdges optionalEdges')
    (hrequired : constructRequiredEdgeForest data optionalEdges = pure required) (allNodes allNodes' : List Node)
    (hnodup : allNodes.Nodup) (hnodes : ∀ x, x ∈ allNodes ↔ x ∈ collectAllNodes data optionalEdges)
    (hnodup' : allNodes'.Nodup) (hnodes' : ∀ x, x ∈ allNodes' ↔ x ∈ collectAllNodes data optionalEdges') :
    constructRequiredEdgeForest data optionalEdges' = pure required ∧
    ∃ result result' selection selection', buildVcg data allNodes optionalEdges required = some result ∧
      buildVcg data allNodes' optionalEdges' required = some result' ∧
      selectOptionalEdges data allNodes optionalEdges required = some selection ∧
      selectOptionalEdges data allNodes' optionalEdges' required = some selection' ∧
      result.spanningForest.broken = selection.broken ∧ result'.spanningForest.broken = selection'.broken ∧
      result.isRoot = result'.isRoot ∧ result.rooted = result'.rooted ∧
      SamePairs selection.selected selection'.selected ∧ SamePairs selection.broken selection'.broken := by
  have hrequired' : constructRequiredEdgeForest data optionalEdges' = pure required :=
    constructRequiredEdgeForest_congr hrearranged ▸ hrequired
  obtain ⟨result, hresult, ⟨run⟩⟩ := buildVcg_run hrequired hnodup hnodes
  obtain ⟨result', hresult', ⟨run'⟩⟩ := buildVcg_run hrequired' hnodup' hnodes'
  have hall : ∀ x, x ∈ allNodes ↔ x ∈ allNodes' := fun x => by
    rw [hnodes, hnodes', hrearranged.mem_collectAllNodes]
  have hends : ∀ e ∈ data.branches ++ optionalEdges, e.1 ∈ allNodes ∧ e.2 ∈ allNodes := fun e he =>
    ⟨(hnodes _).2 (ends_mem_collectAllNodes data optionalEdges he).1,
      (hnodes _).2 (ends_mem_collectAllNodes data optionalEdges he).2⟩
  have hends' : ∀ e ∈ data.branches ++ optionalEdges', e.1 ∈ allNodes' ∧ e.2 ∈ allNodes' := fun e he =>
    ⟨(hnodes' _).2 (ends_mem_collectAllNodes data optionalEdges' he).1,
      (hnodes' _).2 (ends_mem_collectAllNodes data optionalEdges' he).2⟩
  have halike := selection_congr hrequired run run' hnodup hnodup' hall hends hends' hrearranged.samePairs
  have horient := oriented_congr run run' hnodup hnodup' hall hends hends' halike.samePairs
  refine ⟨hrequired', result, result', run.selection, run'.selection, hresult, hresult', ?_, ?_, run.broken_eq,
    run'.broken_eq, ?_, ?_, ?_, ?_⟩
  · rw [selectOptionalEdges, run.order, Option.bind_eq_bind, Option.bind_some, run.select]
  · rw [selectOptionalEdges, run'.order, Option.bind_eq_bind, Option.bind_some, run'.select]
  · rw [run.isRoot_eq, run'.isRoot_eq]
    exact funext fun x => (horient x).1
  · rw [run.rooted_eq, run'.rooted_eq, funext fun x => (horient x).2.1, funext fun x => (horient x).2.2]
  · unfold SamePairs
    rw [halike.selected]
  · unfold SamePairs
    rw [halike.broken]

/-- The edges of the loop in another order, two of them the other way round. -/
def loopEdges' : List Edge := [("c", "d"), ("r", "b"), ("a", "a"), ("b", "a")]

theorem buildVcg_rearranged_loop : ∃ result result' : VcgResult,
    buildVcg loopData ["z", "d", "a", "b", "c", "r"] loopEdges loopRequired = some result ∧
    buildVcg loopData ["r", "z", "c", "d", "a", "b"] loopEdges' loopRequired = some result' ∧
    result.isRoot = result'.isRoot ∧ result.rooted = result'.rooted := by
  have hre : Rearranged loopEdges loopEdges' :=
    ⟨[("b", "a"), ("r", "b"), ("a", "a"), ("c", "d")],
      .cons (.inr rfl) (.cons (.inr rfl) (.cons (.inl rfl) (.cons (.inl rfl) .nil))), by decide⟩
  obtain ⟨-, result, result', -, -, h, h', -, -, -, -, hroot, hrooted, -⟩ :=
    buildVcg_rearranged loopData loopEdges loopEdges' loopRequired hre rfl ["z", "d", "a", "b", "c", "r"]
      ["r", "z", "c", "d", "a", "b"] (by decide)
      (fun x => by
        simp [collectAllNodes, loopData, loopEdges]
        tauto) (by decide) (fun x => by
        simp [collectAllNodes, loopData, loopEdges']
        tauto)
  exact ⟨result, result', h, h', hroot, hrooted⟩

end Rumoca.Flatten
