import Rumoca.Flatten.Vcg
import Rumoca.Lib.Forest
/-!
# The selected edges form a spanning forest

The edge forest answers which nodes the edges taken so far join, and which
trees hold a definite root. So required and selected edges have no cycle and
join no two definite roots, and every broken edge would do one or the other.
-/

namespace Rumoca.Flatten

open Rumoca.Lib

def HoldsDefinite (definite : List Node) (es : List Edge) (x : Node) : Prop := ∃ d ∈ definite, Joined es d x

theorem HoldsDefinite.mono {definite : List Node} {es fs : List Edge} {x : Node} (h : HoldsDefinite definite es x)
    (hsub : ∀ e ∈ es, e ∈ fs) : HoldsDefinite definite fs x := by
  obtain ⟨d, hd, hj⟩ := h
  exact ⟨d, hd, hj.mono hsub⟩

theorem HoldsDefinite.joined {definite : List Node} {es : List Edge} {x y : Node} (h : HoldsDefinite definite es x)
    (hxy : Joined es x y) : HoldsDefinite definite es y := by
  obtain ⟨d, hd, hj⟩ := h
  exact ⟨d, hd, hj.trans hxy⟩

/-- The edges form a forest in which every tree holds at most one definite root. -/
structure IsSpanningForest (definite : List Node) (es : List Edge) : Prop where
  acyclic : Acyclic es
  definite : ∀ d ∈ definite, ∀ d' ∈ definite, Joined es d d' → d = d'

/-- An edge that a spanning forest cannot take: it closes a cycle or joins two definite roots. -/
def Breaks (definite : List Node) (es : List Edge) (e : Edge) : Prop :=
  Joined es e.1 e.2 ∨ (HoldsDefinite definite es e.1 ∧ HoldsDefinite definite es e.2)

theorem Breaks.mono {definite : List Node} {es fs : List Edge} {e : Edge} (h : Breaks definite es e)
    (hsub : ∀ e ∈ es, e ∈ fs) : Breaks definite fs e :=
  h.imp (·.mono hsub) fun h => ⟨h.1.mono hsub, h.2.mono hsub⟩

theorem IsSpanningForest.append {definite : List Node} {es : List Edge} {e : Edge} (h : IsSpanningForest definite es)
    (he : ¬ Breaks definite es e) : IsSpanningForest definite (es ++ [e]) := by
  obtain ⟨a, b⟩ := e
  rw [Breaks, not_or] at he
  refine ⟨h.acyclic.append he.1, fun d hd d' hd' hj => ?_⟩
  rcases joined_append.1 hj with hj | ⟨ha, hb⟩ | ⟨hb, ha⟩
  · exact h.definite d hd d' hd' hj
  · exact absurd ⟨⟨d, hd, ha⟩, d', hd', hb.symm⟩ he.2
  · exact absurd ⟨⟨d', hd', ha.symm⟩, d, hd, hb⟩ he.2

namespace VcgEdgeForest

def root (s : VcgEdgeForest) (i : Nat) : Nat := rootOf s.nodes.length (parentAt s.parent) i

/-- The union-find holds the trees of the edges `es`, and knows which hold a definite root. -/
structure Holds (definite : List Node) (es : List Edge) (s : VcgEdgeForest) : Prop where
  forest : Forest s.nodes.length (descent s.nodes.length) (parentAt s.parent)
  parents : s.parent.length = s.nodes.length
  flags : s.hasDefiniteRoot.length = s.nodes.length
  joined : ∀ i j x y, s.nodes[i]? = some x → s.nodes[j]? = some y → (s.root i = s.root j ↔ Joined es x y)
  definite : ∀ i x, s.nodes[i]? = some x → s.root i = i →
    (s.hasDefiniteRoot[i]? = some true ↔ HoldsDefinite definite es x)

theorem lt_of_node {s : VcgEdgeForest} {i : Nat} {x : Node} (h : s.nodes[i]? = some x) : i < s.nodes.length :=
  (List.getElem?_eq_some_iff.1 h).1

theorem index_of_mem {s : VcgEdgeForest} {x : Node} (h : x ∈ s.nodes) :
    ∃ i, s.index x = some i ∧ s.nodes[i]? = some x := by
  obtain ⟨i, hi⟩ := Option.isSome_iff_exists.1 (List.isSome_idxOf?.2 h)
  obtain ⟨hlt, hx, -⟩ := List.idxOf?_eq_some_iff.1 hi
  exact ⟨i, hi, List.getElem?_eq_some_iff.2 ⟨hlt, hx⟩⟩

/-! ## Finding -/

theorem findParents_spec {n : Nat} : ∀ (fuel : Nat) {parents : List Nat} {x : Nat},
    Forest n (descent n) (parentAt parents) → parents.length = n → x < fuel → x < n →
    ∃ parents', findParents fuel parents x = some (parents', rootOf n (parentAt parents) x) ∧
      parents'.length = n ∧ Forest n (descent n) (parentAt parents') ∧
      ∀ z, rootOf n (parentAt parents') z = rootOf n (parentAt parents) z := by
  intro fuel
  induction fuel with
  | zero => intro parents x _ _ hx; omega
  | succ fuel ih =>
    intro parents x h hlen hx hn
    have hget : parents[x]? = some (parentAt parents x) := getElem?_parentAt (by omega)
    by_cases hp : parentAt parents x = x
    · refine ⟨parents, ?_, hlen, h, fun _ => rfl⟩
      rw [findParents, hget, Forest.rootOf_of_root hp]
      simp [hp]
    · -- the parent has a lower index, and so has everything above it
      have hlt := h.up x hp
      have hpn := h.inside x hn
      have hpx : parentAt parents x < x := by rw [descent, descent] at hlt; omega
      obtain ⟨parents', hfind, hlen', h', hroots⟩ := ih h hlen (by omega) hpn
      have hroot : rootOf n (parentAt parents) (parentAt parents x) = rootOf n (parentAt parents) x := h.rootOf_parent x
      have habove : descent n x < descent n (rootOf n (parentAt parents) x) :=
        hroot ▸ hlt.trans_le (h.height_le_rootOf _)
      have hset := h'.repoint hn (h.rootOf_lt hn) habove (by rw [hroots, hroots, h.rootOf_rootOf])
      rw [← parentAt_set (by omega : x < parents'.length)] at hset
      refine ⟨parents'.set x (rootOf n (parentAt parents) x), ?_, by simp [hlen'], hset.1, fun z => ?_⟩
      · simp only [findParents, hget, Option.bind_eq_bind, Option.bind_some, if_neg hp, hfind, hroot]
        rfl
      · rw [hset.2, hroots]

section
variable {definite : List Node} {es : List Edge} {s : VcgEdgeForest}

theorem Holds.root_root (h : Holds definite es s) (i : Nat) : s.root (s.root i) = s.root i := h.forest.rootOf_rootOf i

theorem Holds.root_lt (h : Holds definite es s) {i : Nat} (hi : i < s.nodes.length) : s.root i < s.nodes.length :=
  h.forest.rootOf_lt hi

theorem Holds.root_node (h : Holds definite es s) {i : Nat} {x : Node} (hi : s.nodes[i]? = some x) :
    ∃ r, s.nodes[s.root i]? = some r ∧ Joined es r x := by
  have hlt := h.root_lt (lt_of_node hi)
  refine ⟨s.nodes[s.root i], List.getElem?_eq_getElem hlt, ?_⟩
  exact (h.joined _ _ _ _ (List.getElem?_eq_getElem hlt) hi).1 (h.root_root i)

theorem Holds.flag (h : Holds definite es s) {i : Nat} (hi : i < s.nodes.length) :
    ∃ flag, s.hasDefiniteRoot[i]? = some flag :=
  ⟨_, List.getElem?_eq_getElem (h.flags ▸ hi)⟩

theorem find_spec (h : Holds definite es s) {i : Nat} (hi : i < s.nodes.length) :
    ∃ s', s.find i = some (s', s.root i) ∧ s'.nodes = s.nodes ∧ s'.root = s.root ∧
      s'.hasDefiniteRoot = s.hasDefiniteRoot ∧ Holds definite es s' := by
  obtain ⟨parents, hfind, hlen, hforest, hroots⟩ :=
    findParents_spec s.parent.length h.forest h.parents (by rw [h.parents]; exact hi) hi
  have hroot : (⟨s.nodes, parents, s.hasDefiniteRoot⟩ : VcgEdgeForest).root = s.root := funext hroots
  refine ⟨⟨s.nodes, parents, s.hasDefiniteRoot⟩, ?_, rfl, hroot, rfl, hforest, hlen, h.flags, ?_, ?_⟩
  · simp only [find, hfind, Option.bind_eq_bind, Option.bind_some]
    rfl
  · rw [hroot]
    exact h.joined
  · rw [hroot]
    exact h.definite

/-! ## Joining -/

theorem Holds.congr (h : Holds definite es s) {fs : List Edge} (hfs : ∀ x y, Joined fs x y ↔ Joined es x y) :
    Holds definite fs s := by
  refine ⟨h.forest, h.parents, h.flags, fun i j x y hi hj => ?_, fun i x hi hroot => ?_⟩
  · rw [hfs]
    exact h.joined i j x y hi hj
  · rw [h.definite i x hi hroot]
    simp only [HoldsDefinite, hfs]

/-- Pointing a root at a lower one takes an edge between their trees. -/
theorem link_holds (h : Holds definite es s) {keep merge : Nat} {x y a b : Node} (hx : s.nodes[keep]? = some x)
    (hy : s.nodes[merge]? = some y) (hkeep : s.root keep = keep) (hmerge : s.root merge = merge) (hlt : keep < merge)
    (hedge : (Joined es x a ∧ Joined es y b) ∨ (Joined es x b ∧ Joined es y a)) {f g : Bool}
    (hf : s.hasDefiniteRoot[keep]? = some f) (hg : s.hasDefiniteRoot[merge]? = some g) :
    Holds definite (es ++ [(a, b)])
      { s with parent := s.parent.set merge keep, hasDefiniteRoot := s.hasDefiniteRoot.set keep (f || g) } := by
  have hn := lt_of_node hy
  have hk : parentAt s.parent keep = keep := by rw [← hkeep]; exact h.forest.parent_rootOf keep
  have hm : parentAt s.parent merge = merge := by rw [← hmerge]; exact h.forest.parent_rootOf merge
  have hset := parentAt_set (x := merge) (by rw [h.parents]; exact hn) keep
  have hforest := h.forest.link_forest (descent s.nodes.length) hn (hlt.trans hn) hk (fun _ _ => rfl) le_rfl
    (by rw [descent, descent]; omega) hlt.ne'
  have hroot : ∀ z, rootOf s.nodes.length (parentAt (s.parent.set merge keep)) z =
      if s.root z = merge then keep else s.root z := by
    intro z
    rw [hset]
    exact h.forest.link hm hk hforest hlt.ne' z
  have hofx : ∀ i z, s.nodes[i]? = some z → (s.root i = keep ↔ Joined es z x) := fun i z hi => by
    rw [← h.joined i keep z x hi hx, hkeep]
  have hofy : ∀ i z, s.nodes[i]? = some z → (s.root i = merge ↔ Joined es z y) := fun i z hi => by
    rw [← h.joined i merge z y hi hy, hmerge]
  -- the edge joins the trees of the two roots
  have hjoin : ∀ p q, Joined (es ++ [(a, b)]) p q ↔
      Joined es p q ∨ (Joined es p y ∧ Joined es q x) ∨ (Joined es p x ∧ Joined es q y) := by
    intro p q
    rw [joined_append]
    rcases hedge with ⟨ha, hb⟩ | ⟨hb, ha⟩
    · constructor
      · rintro (hj | ⟨h₁, h₂⟩ | ⟨h₁, h₂⟩)
        · exact .inl hj
        · exact .inr (.inr ⟨h₁.trans ha.symm, h₂.symm.trans hb.symm⟩)
        · exact .inr (.inl ⟨h₁.trans hb.symm, h₂.symm.trans ha.symm⟩)
      · rintro (hj | ⟨h₁, h₂⟩ | ⟨h₁, h₂⟩)
        · exact .inl hj
        · exact .inr (.inr ⟨h₁.trans hb, (h₂.trans ha).symm⟩)
        · exact .inr (.inl ⟨h₁.trans ha, (h₂.trans hb).symm⟩)
    · constructor
      · rintro (hj | ⟨h₁, h₂⟩ | ⟨h₁, h₂⟩)
        · exact .inl hj
        · exact .inr (.inl ⟨h₁.trans ha.symm, h₂.symm.trans hb.symm⟩)
        · exact .inr (.inr ⟨h₁.trans hb.symm, h₂.symm.trans ha.symm⟩)
      · rintro (hj | ⟨h₁, h₂⟩ | ⟨h₁, h₂⟩)
        · exact .inl hj
        · exact .inr (.inl ⟨h₁.trans ha, (h₂.trans hb).symm⟩)
        · exact .inr (.inr ⟨h₁.trans hb, (h₂.trans ha).symm⟩)
  refine ⟨hset ▸ hforest, by simp [h.parents], by simp [h.flags], fun i j p q hi hj => ?_, fun i z hi hz => ?_⟩
  · rw [root, root, hroot, hroot, link_eq_iff, hjoin, h.joined i j p q hi hj, hofy i p hi, hofx i p hi, hofx j q hj,
      hofy j q hj]
  · have hz : (if s.root i = merge then keep else s.root i) = i := (hroot i).symm.trans hz
    have hdef : HoldsDefinite definite (es ++ [(a, b)]) z ↔ HoldsDefinite definite es z ∨
        (Joined es z x ∧ HoldsDefinite definite es y) ∨ (Joined es z y ∧ HoldsDefinite definite es x) := by
      constructor
      · rintro ⟨d, hd, hj⟩
        rcases (hjoin d z).1 hj with hj | ⟨h₁, h₂⟩ | ⟨h₁, h₂⟩
        · exact .inl ⟨d, hd, hj⟩
        · exact .inr (.inl ⟨h₂, d, hd, h₁⟩)
        · exact .inr (.inr ⟨h₂, d, hd, h₁⟩)
      · rintro (⟨d, hd, hj⟩ | ⟨h₁, d, hd, h₂⟩ | ⟨h₁, d, hd, h₂⟩)
        · exact ⟨d, hd, (hjoin d z).2 (.inl hj)⟩
        · exact ⟨d, hd, (hjoin d z).2 (.inr (.inl ⟨h₂, h₁⟩))⟩
        · exact ⟨d, hd, (hjoin d z).2 (.inr (.inr ⟨h₂, h₁⟩))⟩
    by_cases hik : i = keep
    · -- the kept root: both flags count
      subst hik
      obtain rfl : x = z := Option.some.inj (hx.symm.trans hi)
      have hfx := h.definite i x hx hkeep
      have hgy := h.definite merge y hy hmerge
      rw [hf, Option.some.injEq] at hfx
      rw [hg, Option.some.injEq] at hgy
      have hxy : ¬ Joined es x y := by
        rw [← hofy i x hx, hkeep]
        exact hlt.ne
      rw [List.getElem?_set_self (by rw [h.flags]; exact lt_of_node hx), Option.some.injEq, Bool.or_eq_true, hfx, hgy,
        hdef]
      constructor
      · rintro (hd | hd)
        · exact .inl hd
        · exact .inr (.inl ⟨.refl _ _, hd⟩)
      · rintro (hd | ⟨-, hd⟩ | ⟨hj, -⟩)
        · exact .inl hd
        · exact .inr hd
        · exact absurd hj hxy
    · -- a root of another tree, which the edge leaves alone
      have him : s.root i ≠ merge := fun he => hik (by rw [if_pos he] at hz; exact hz.symm)
      rw [if_neg him] at hz
      rw [List.getElem?_set_ne (Ne.symm hik), h.definite i z hi hz, hdef]
      constructor
      · exact .inl
      · rintro (hd | ⟨hj, -⟩ | ⟨hj, -⟩)
        · exact hd
        · exact absurd (hz.symm.trans ((hofx i z hi).2 hj)) hik
        · exact absurd ((hofy i z hi).2 hj) him

theorem union_spec (h : Holds definite es s) {i j : Nat} {x y a b : Node} (hi : s.nodes[i]? = some x)
    (hj : s.nodes[j]? = some y) (ha : Joined es x a) (hb : Joined es y b) :
    ∃ s', s.union i j = some s' ∧ s'.nodes = s.nodes ∧ Holds definite (es ++ [(a, b)]) s' := by
  obtain ⟨s₁, hfind₁, hnodes₁, hroot₁, -, h₁⟩ := find_spec h (lt_of_node hi)
  obtain ⟨s₂, hfind₂, hnodes₂, hroot₂, -, h₂⟩ := find_spec h₁ (i := j) (by rw [hnodes₁]; exact lt_of_node hj)
  have hroot : s₂.root = s.root := hroot₂.trans hroot₁
  have hnodes : s₂.nodes = s.nodes := hnodes₂.trans hnodes₁
  rw [hroot₁] at hfind₂
  by_cases he : s.root i = s.root j
  · have hxy : Joined es a b := ha.symm.trans (((h.joined i j x y hi hj).1 he).trans hb)
    refine ⟨s₂, ?_, hnodes, h₂.congr fun p q => joined_append_of_joined hxy⟩
    simp only [union, hfind₁, hfind₂, Option.bind_eq_bind, Option.bind_some, if_pos he]
    rfl
  · obtain ⟨p, hp, hpx⟩ := h.root_node hi
    obtain ⟨q, hq, hqy⟩ := h.root_node hj
    have hpa := hpx.trans ha
    have hqb := hqy.trans hb
    obtain ⟨f, hf⟩ := h₂.flag (i := s.root i) (by rw [hnodes]; exact lt_of_node hp)
    obtain ⟨g, hg⟩ := h₂.flag (i := s.root j) (by rw [hnodes]; exact lt_of_node hq)
    rw [← hnodes] at hp hq
    have hri : s₂.root (s.root i) = s.root i := by rw [hroot, h.root_root]
    have hrj : s₂.root (s.root j) = s.root j := by rw [hroot, h.root_root]
    rcases Nat.lt_or_ge (s.root i) (s.root j) with hlt | hge
    · refine ⟨_, ?_, ?_, link_holds h₂ hp hq hri hrj hlt (.inl ⟨hpa, hqb⟩) hf hg⟩
      · simp only [union, hfind₁, hfind₂, Option.bind_eq_bind, Option.bind_some, if_neg he, if_pos hlt, hf, hg]
        rfl
      · exact hnodes
    · refine ⟨_, ?_, ?_, link_holds h₂ hq hp hrj hri (by omega) (.inr ⟨hqb, hpa⟩) hg hf⟩
      · simp only [union, hfind₁, hfind₂, Option.bind_eq_bind, Option.bind_some, if_neg he, if_neg (Nat.not_lt.2 hge), hf, hg]
        rfl
      · exact hnodes

/-- Where two nodes meet: equal roots when the edges join them, and the flag when both trees hold a definite root. -/
theorem meet_spec (h : Holds definite es s) {i j : Nat} {a b : Node} (hi : s.nodes[i]? = some a)
    (hj : s.nodes[j]? = some b) :
    ∃ s' ri rj flag, s.meet i j = some (s', ri, rj, flag) ∧ s'.nodes = s.nodes ∧ Holds definite es s' ∧
      ((ri = rj ∨ flag = true) ↔ Breaks definite es (a, b)) ∧
      ∃ s'', s'.union ri rj = some s'' ∧ s''.nodes = s.nodes ∧ Holds definite (es ++ [(a, b)]) s'' := by
  obtain ⟨s₁, hfind₁, hnodes₁, hroot₁, -, h₁⟩ := find_spec h (lt_of_node hi)
  obtain ⟨s₂, hfind₂, hnodes₂, hroot₂, -, h₂⟩ := find_spec h₁ (i := j) (by rw [hnodes₁]; exact lt_of_node hj)
  have hroot : s₂.root = s.root := hroot₂.trans hroot₁
  have hnodes : s₂.nodes = s.nodes := hnodes₂.trans hnodes₁
  rw [hroot₁] at hfind₂
  obtain ⟨p, hp, hpa⟩ := h.root_node hi
  obtain ⟨q, hq, hqb⟩ := h.root_node hj
  rw [← hnodes] at hp hq
  obtain ⟨f, hf⟩ := h₂.flag (lt_of_node hp)
  obtain ⟨g, hg⟩ := h₂.flag (lt_of_node hq)
  have hfp := h₂.definite (s.root i) p hp (by rw [hroot, h.root_root])
  have hgq := h₂.definite (s.root j) q hq (by rw [hroot, h.root_root])
  rw [hf, Option.some.injEq] at hfp
  rw [hg, Option.some.injEq] at hgq
  obtain ⟨s₃, hunion, hnodes₃, h₃⟩ := union_spec h₂ hp hq hpa hqb
  refine ⟨s₂, s.root i, s.root j, f && g, ?_, hnodes, h₂, ?_, s₃, hunion, hnodes₃.trans hnodes, h₃⟩
  · simp only [meet, hfind₁, hfind₂, Option.bind_eq_bind, Option.bind_some, hf, hg]
    rfl
  · rw [h.joined i j a b hi hj, Bool.and_eq_true, hfp, hgq, Breaks]
    exact or_congr_right (and_congr ⟨fun hd => hd.joined hpa, fun hd => hd.joined hpa.symm⟩
      ⟨fun hd => hd.joined hqb, fun hd => hd.joined hqb.symm⟩)

theorem rejectOptionalEdge_spec (h : Holds definite es s) {e : Edge} (h₁ : e.1 ∈ s.nodes) (h₂ : e.2 ∈ s.nodes) :
    ∃ s' rejected, s.rejectOptionalEdge e.1 e.2 = some (s', rejected) ∧ s'.nodes = s.nodes ∧
      (rejected = true ↔ Breaks definite es e) ∧ Holds definite (if rejected then es else es ++ [e]) s' := by
  obtain ⟨i, hi, hni⟩ := index_of_mem h₁
  obtain ⟨j, hj, hnj⟩ := index_of_mem h₂
  obtain ⟨s₁, ri, rj, flag, hmeet, hnodes, hs₁, hbreaks, s₂, hunion, hnodes₂, hs₂⟩ := meet_spec h hni hnj
  by_cases hb : Breaks definite es e
  · refine ⟨s₁, true, ?_, hnodes, by simp [hb], hs₁⟩
    simp only [rejectOptionalEdge, hi, hj, hmeet, Option.bind_eq_bind, Option.bind_some, if_pos (hbreaks.2 hb)]
    rfl
  · refine ⟨s₂, false, ?_, hnodes₂, by simp [hb], hs₂⟩
    simp only [rejectOptionalEdge, hi, hj, hmeet, Option.bind_eq_bind, Option.bind_some,
      if_neg fun hc => hb (hbreaks.1 hc), hunion]
    rfl

theorem insertRequiredEdge_spec (h : Holds definite es s) {e : Edge} (h₁ : e.1 ∈ s.nodes) (h₂ : e.2 ∈ s.nodes)
    (span : Span) :
    Outcome (s.insertRequiredEdge e.1 e.2 span)
      (fun s' => s'.nodes = s.nodes ∧ ¬ Breaks definite es e ∧ Holds definite (es ++ [e]) s') (fun _ => True) := by
  obtain ⟨i, hi, hni⟩ := index_of_mem h₁
  obtain ⟨j, hj, hnj⟩ := index_of_mem h₂
  obtain ⟨s₁, ri, rj, flag, hmeet, hnodes, hs₁, hbreaks, s₂, hunion, hnodes₂, hs₂⟩ := meet_spec h hni hnj
  simp only [insertRequiredEdge, hi, hj, hmeet, lift_some]
  by_cases hr : ri = rj
  · rw [if_pos hr]
    exact .throw trivial
  · cases hf : flag with
    | true =>
      rw [if_neg hr]
      exact .throw trivial
    | false =>
      rw [if_neg hr]
      refine .inl ⟨s₂, ?_, hnodes₂, fun hb => ?_, hs₂⟩
      · simp only [hunion, Bool.false_eq_true, if_false]
        rfl
      · rcases hbreaks.2 hb with hc | hc
        · exact hr hc
        · rw [hf] at hc
          cases hc

end

/-! ## The empty forest -/

theorem mem_dedup (l : List Node) (x : Node) : x ∈ dedup l ↔ x ∈ l := by
  fun_induction dedup l with
  | case1 b rest ih => rw [ih]; simp
  | case2 a b rest hne ih => rw [List.mem_cons, ih, List.mem_cons (l := b :: rest)]
  | case3 l => rfl

theorem dedup_pairwise {l : List Node} (h : l.Pairwise (· ≤ ·)) : (dedup l).Pairwise (· < ·) := by
  fun_induction dedup l with
  | case1 b rest ih => exact ih (List.pairwise_cons.1 h).2
  | case2 a b rest hne ih =>
    rw [List.pairwise_cons] at h
    refine List.pairwise_cons.2 ⟨fun x hx => ?_, ih h.2⟩
    rw [mem_dedup] at hx
    -- `a` lies below `b`, and `b` below everything after it
    have hab : a < b := lt_of_le_of_ne (h.1 b (by simp)) hne
    rcases List.mem_cons.1 hx with rfl | hx
    · exact hab
    · exact hab.trans_le ((List.pairwise_cons.1 h.2).1 x hx)
  | case3 l hl =>
    match l, hl with
    | [], _ => exact .nil
    | [a], _ => exact List.pairwise_singleton _ a
    | a :: b :: rest, hl => exact absurd rfl (hl a b rest)

variable (definiteRoots : List Node) (branches optionalEdges : List Edge)

theorem newEmpty_nodup : (newEmpty definiteRoots branches optionalEdges).nodes.Nodup :=
  (dedup_pairwise (List.pairwise_insertionSort (· ≤ ·) _)).imp fun h => h.ne

theorem mem_newEmpty (x : Node) : x ∈ (newEmpty definiteRoots branches optionalEdges).nodes ↔
    (∃ e ∈ branches ++ optionalEdges, x = e.1 ∨ x = e.2) ∨ x ∈ definiteRoots := by
  rw [newEmpty, mem_dedup, List.mem_insertionSort, List.mem_append, List.mem_flatMap]
  simp

theorem mem_newEmpty_of_edge {e : Edge} (he : e ∈ branches ++ optionalEdges) :
    e.1 ∈ (newEmpty definiteRoots branches optionalEdges).nodes ∧
      e.2 ∈ (newEmpty definiteRoots branches optionalEdges).nodes :=
  ⟨(mem_newEmpty _ _ _ _).2 (.inl ⟨e, he, .inl rfl⟩), (mem_newEmpty _ _ _ _).2 (.inl ⟨e, he, .inr rfl⟩)⟩

theorem root_range {nodes : List Node} (flags : List Bool) (i : Nat) :
    (⟨nodes, List.range nodes.length, flags⟩ : VcgEdgeForest).root i = i := by
  rw [root, parentAt_range]
  exact Forest.rootOf_of_root rfl

theorem holds_range {definite : List Node} {nodes : List Node} {flags : List Bool} (hnodup : nodes.Nodup)
    (hlen : flags.length = nodes.length)
    (hflags : ∀ (i : Nat) x, nodes[i]? = some x → (flags[i]? = some true ↔ x ∈ definite)) :
    Holds definite [] ⟨nodes, List.range nodes.length, flags⟩ := by
  refine ⟨?_, by simp, hlen, fun i j x y hi hj => ?_, fun i x hi _ => ?_⟩
  · rw [parentAt_range]
    exact Forest.refl _ _
  · rw [root_range, root_range, joined_nil]
    constructor
    · rintro rfl
      exact Option.some.inj (hi.symm.trans hj)
    · rintro rfl
      obtain ⟨hi, hx⟩ := List.getElem?_eq_some_iff.1 hi
      obtain ⟨hj, hy⟩ := List.getElem?_eq_some_iff.1 hj
      exact hnodup.getElem_inj_iff.1 (hx.trans hy.symm)
  · rw [hflags i x hi]
    constructor
    · exact fun hx => ⟨x, hx, .refl _ x⟩
    · rintro ⟨d, hd, hj⟩
      exact joined_nil.1 hj ▸ hd

theorem mark_spec {nodes : List Node} (hnodup : nodes.Nodup) (names : List Node) :
    (names.foldl (fun flags root =>
      match nodes.idxOf? root with
      | some index => flags.set index true
      | none => flags) (List.replicate nodes.length false)).length = nodes.length ∧
    ∀ (i : Nat) x, nodes[i]? = some x → ((names.foldl (fun flags root =>
      match nodes.idxOf? root with
      | some index => flags.set index true
      | none => flags) (List.replicate nodes.length false))[i]? = some true ↔ x ∈ names) := by
  refine foldl_inv (fun (pre : List Node) (flags : List Bool) => flags.length = nodes.length ∧
    ∀ (i : Nat) x, nodes[i]? = some x → (flags[i]? = some true ↔ x ∈ pre)) ?_ ?_
  · intro pre root post flags _ ⟨hlen, hflags⟩
    cases hr : nodes.idxOf? root with
    | none =>
      have hnot : root ∉ nodes := by simpa using hr
      refine ⟨hlen, fun i x hi => ?_⟩
      have hne : x ≠ root := fun he => hnot (he ▸ List.mem_of_getElem? hi)
      simp [hflags i x hi, hne]
    | some k =>
      obtain ⟨hk, hroot, -⟩ := List.idxOf?_eq_some_iff.1 hr
      refine ⟨by simp [hlen], fun i x hi => ?_⟩
      by_cases hik : i = k
      · subst hik
        obtain rfl : root = x := hroot.symm.trans (Option.some.inj ((List.getElem?_eq_getElem hk).symm.trans hi))
        simp [List.getElem?_set_self (hlen ▸ hk : i < flags.length)]
      · have hne : x ≠ root := by
          rintro rfl
          obtain ⟨hi, hx⟩ := List.getElem?_eq_some_iff.1 hi
          exact hik (hnodup.getElem_inj_iff.1 (hx.trans hroot.symm))
        rw [List.getElem?_set_ne (Ne.symm hik), hflags i x hi]
        simp [hne]
  · refine ⟨List.length_replicate, fun i x hi => ?_⟩
    simp [List.getElem?_replicate]

theorem newEmpty_holds : Holds definiteRoots [] (newEmpty definiteRoots branches optionalEdges) := by
  have hnodup := newEmpty_nodup definiteRoots branches optionalEdges
  have hmark := mark_spec hnodup definiteRoots
  exact holds_range hnodup hmark.1 hmark.2

end VcgEdgeForest

/-! ## Required edges -/

section
variable {data : VcgPreScanData} {optionalEdges : List Edge}

/-- One turn of the pass over the branches. -/
def insertBranch (data : VcgPreScanData) (forest : VcgEdgeForest) (p : Edge × Nat) : FlattenResult VcgEdgeForest :=
  match branchSpan data p.2 with
  | some span => forest.insertRequiredEdge p.1.1 p.1.2 span
  | none => throw (noSourceSpan p.1.1 p.1.2)

theorem constructRequiredEdgeForest_spec {required : VcgEdgeForest}
    (h : constructRequiredEdgeForest data optionalEdges = pure required) :
    required.Holds data.definiteRoots data.branches ∧ IsSpanningForest data.definiteRoots data.branches ∧
      required.nodes.Nodup ∧ ∀ e ∈ data.branches ++ optionalEdges, e.1 ∈ required.nodes ∧ e.2 ∈ required.nodes := by
  have hends := fun {e} => VcgEdgeForest.mem_newEmpty_of_edge data.definiteRoots data.branches optionalEdges (e := e)
  have hloop := Outcome.foldlM (Q := fun _ => True) (l := data.branches.zipIdx)
    (s := VcgEdgeForest.newEmpty data.definiteRoots data.branches optionalEdges)
    (f := insertBranch data)
    (fun pre forest => forest.nodes = (VcgEdgeForest.newEmpty data.definiteRoots data.branches optionalEdges).nodes ∧
      forest.Holds data.definiteRoots (pre.map (·.1)) ∧ IsSpanningForest data.definiteRoots (pre.map (·.1)))
    (fun pre p post forest hl ⟨hnodes, hholds, hspan⟩ => by
      unfold insertBranch
      cases hs : branchSpan data p.2 with
      | none => exact .throw trivial
      | some span =>
        have hmem : p.1 ∈ data.branches ++ optionalEdges := by
          have : p ∈ data.branches.zipIdx := by rw [hl]; simp
          exact List.mem_append_left _ (List.fst_mem_of_mem_zipIdx this)
        have hins := VcgEdgeForest.insertRequiredEdge_spec hholds (e := p.1) (hnodes ▸ (hends hmem).1)
          (hnodes ▸ (hends hmem).2) span
        refine hins.mono (fun forest' ⟨hnodes', hbreaks, hholds'⟩ => ?_) fun _ => id
        rw [List.map_append, List.map_singleton]
        exact ⟨hnodes'.trans hnodes, hholds', hspan.append hbreaks⟩)
    ⟨rfl, VcgEdgeForest.newEmpty_holds _ _ _, acyclic_nil, fun d _ d' _ hj => joined_nil.1 hj⟩
  have hall : Outcome (constructRequiredEdgeForest data optionalEdges) (fun forest =>
      forest.nodes = (VcgEdgeForest.newEmpty data.definiteRoots data.branches optionalEdges).nodes ∧
      forest.Holds data.definiteRoots data.branches ∧ IsSpanningForest data.definiteRoots data.branches)
      (fun _ => True) := by
    refine hloop.bind fun forest hforest => ?_
    rw [List.zipIdx_map_fst] at hforest
    by_cases hlen : data.branchSpans.length ≠ data.branches.length
    · rw [if_pos hlen]
      exact .throw trivial
    · rw [if_neg hlen]
      exact .pure hforest
  obtain ⟨hnodes, hholds, hspan⟩ := hall.of_pure h
  exact ⟨hholds, hspan, hnodes ▸ VcgEdgeForest.newEmpty_nodup _ _ _, fun e he => hnodes ▸ hends he⟩

end

/-! ## Optional edges -/

/-- The optional edges in any order: those selected keep a spanning forest, and each broken one would break it. -/
theorem foldlM_selection {definite : List Node} {branches ordered : List Edge} {required : VcgEdgeForest}
    (hholds : required.Holds definite branches) (hspan : IsSpanningForest definite branches)
    (hends : ∀ e ∈ ordered, e.1 ∈ required.nodes ∧ e.2 ∈ required.nodes) :
    ∃ s, ordered.foldlM Selection.turn ⟨required, [], []⟩ = some s ∧ (s.selected ++ s.broken).Perm ordered ∧
      IsSpanningForest definite (branches ++ s.selected) ∧
      ∀ e ∈ s.broken, Breaks definite (branches ++ s.selected) e := by
  obtain ⟨s, hs, -, -, hperm, hspan, hbroken⟩ := foldlM_spec (l := ordered) (f := Selection.turn)
    (s := ⟨required, [], []⟩)
    (fun pre s => s.forest.nodes = required.nodes ∧ s.forest.Holds definite (branches ++ s.selected) ∧
      (s.selected ++ s.broken).Perm pre ∧ IsSpanningForest definite (branches ++ s.selected) ∧
      ∀ e ∈ s.broken, Breaks definite (branches ++ s.selected) e)
    (fun pre e post s hl ⟨hnodes, hholds, hperm, hspan, hbroken⟩ => by
      have he := hends e (by rw [hl]; simp)
      obtain ⟨forest, rejected, hreject, hnodes', hiff, hholds'⟩ :=
        VcgEdgeForest.rejectOptionalEdge_spec hholds (e := e) (hnodes ▸ he.1) (hnodes ▸ he.2)
      cases rejected with
      | true =>
        refine ⟨⟨forest, s.selected, s.broken ++ [e]⟩, ?_, hnodes'.trans hnodes, hholds', ?_, hspan, fun f hf => ?_⟩
        · simp only [Selection.turn, hreject, Option.bind_eq_bind, Option.bind_some]
          rfl
        · rw [← List.append_assoc]
          exact hperm.append_right [e]
        · rcases List.mem_append.1 hf with hf | hf
          · exact hbroken f hf
          · obtain rfl := List.mem_singleton.1 hf
            exact hiff.1 rfl
      | false =>
        have hnot : ¬ Breaks definite (branches ++ s.selected) e := fun hb => nomatch hiff.2 hb
        have hsel : branches ++ s.selected ++ [e] = branches ++ (s.selected ++ [e]) := List.append_assoc _ _ _
        refine ⟨⟨forest, s.selected ++ [e], s.broken⟩, ?_, hnodes'.trans hnodes, hsel ▸ hholds', ?_, ?_, fun f hf => ?_⟩
        · simp only [Selection.turn, hreject, Option.bind_eq_bind, Option.bind_some]
          rfl
        · rw [List.append_assoc]
          exact (List.perm_append_comm.append_left _).trans (by rw [← List.append_assoc]; exact hperm.append_right [e])
        · exact hsel ▸ hspan.append hnot
        · exact (hbroken f hf).mono fun g hg => by
            rw [← List.append_assoc]
            exact List.mem_append_left _ hg)
    ⟨rfl, by rwa [List.append_nil], .refl _, by rwa [List.append_nil], fun e he => nomatch he⟩
  exact ⟨s, hs, hperm, hspan, hbroken⟩

/-- One turn of the pass over the selected edges. -/
def joinEnds (s : VcgEdgeForest) (edge : Edge) : Option VcgEdgeForest :=
  match s.index edge.1, s.index edge.2 with
  | some lhs, some rhs => s.union lhs rhs
  | _, _ => some s

theorem selectedSpanningForest_spec {definite : List Node} {branches selected : List Edge} {required : VcgEdgeForest}
    (hholds : required.Holds definite branches) (hnodup : required.nodes.Nodup)
    (hends : ∀ e ∈ selected, e.1 ∈ required.nodes ∧ e.2 ∈ required.nodes) (broken : List Edge) :
    ∃ forest, SelectedSpanningForest.new required selected broken = some ⟨forest, broken⟩ ∧
      forest.nodes = required.nodes ∧ forest.Holds [] selected := by
  have hempty : VcgEdgeForest.Holds [] []
      ⟨required.nodes, List.range required.nodes.length, List.replicate required.nodes.length false⟩ :=
    VcgEdgeForest.holds_range hnodup List.length_replicate (fun i x hi => by simp [List.getElem?_replicate])
  obtain ⟨forest, hforest, hnodes, hsel⟩ := foldlM_spec (l := selected)
    (s := (⟨required.nodes, List.range required.parent.length, List.replicate required.parent.length false⟩ : VcgEdgeForest))
    (f := joinEnds)
    (fun pre s => s.nodes = required.nodes ∧ s.Holds [] pre)
    (fun pre e post s hl ⟨hnodes, hs⟩ => by
      have he := hends e (by rw [hl]; simp)
      obtain ⟨i, hi, hni⟩ := VcgEdgeForest.index_of_mem (hnodes ▸ he.1 : e.1 ∈ s.nodes)
      obtain ⟨j, hj, hnj⟩ := VcgEdgeForest.index_of_mem (hnodes ▸ he.2 : e.2 ∈ s.nodes)
      obtain ⟨s', hunion, hnodes', hs'⟩ := VcgEdgeForest.union_spec hs hni hnj (.refl _ _) (.refl _ _)
      exact ⟨s', by simp only [joinEnds, hi, hj, hunion], hnodes'.trans hnodes, hs'⟩)
    ⟨rfl, by rw [hholds.parents]; exact hempty⟩
  refine ⟨forest, ?_, hnodes, hsel⟩
  unfold SelectedSpanningForest.new
  exact Option.bind_eq_some_iff.2 ⟨forest, hforest, rfl⟩

end Rumoca.Flatten
