import Rumoca.Flatten.EqualityLinks
import Rumoca.Flatten.VcgOrientation
import Rumoca.Lib.ForestCount
/-!
# The equations of a connection set are a tree

The chains leave one tree in every group, and the group union-find takes an
edge for every accepted broken edge and every anchor equality, so these are a
tree of the groups. Counting edges, the members have a spanning tree. The
record pairs emitted so far are kept, so no pair is emitted twice.
-/

namespace Rumoca.Flatten

open Rumoca.Lib

/-! ## The group union-find -/

namespace GroupQuotient

def up (q : GroupQuotient) (group : Nat) : Nat := (q.parent group).getD group

theorem up_update (parent : Nat → Option Nat) (group root : Nat) :
    (⟨Function.update parent group (some root)⟩ : GroupQuotient).up =
      Function.update (⟨parent⟩ : GroupQuotient).up group root := by
  funext g
  by_cases hg : g = group
  · subst hg
    simp [up]
  · simp [up, Function.update_of_ne hg]

theorem up_enter (q : GroupQuotient) (group : Nat) :
    (⟨Function.update q.parent group (some (q.up group))⟩ : GroupQuotient).up = q.up := by
  rw [up_update]
  exact Function.update_eq_self group q.up

theorem find_succ (fuel : Nat) (q : GroupQuotient) (x : Nat) :
    find (fuel + 1) q x =
      if q.up x = x then some (⟨Function.update q.parent x (some (q.up x))⟩, x)
      else (find fuel ⟨Function.update q.parent x (some (q.up x))⟩ (q.up x)).bind fun r =>
        some (⟨Function.update r.1.parent x (some r.2)⟩, r.2) := rfl

/-- The union-find holds the trees of the edges `es` among the groups below `n`. -/
structure Holds (n : Nat) (es : List (Nat × Nat)) (q : GroupQuotient) : Prop where
  forest : Forest n (descent n) q.up
  joined : ∀ i < n, ∀ j < n, (rootOf n q.up i = rootOf n q.up j ↔ Joined es i j)

theorem holds_empty (n : Nat) : Holds n [] empty := by
  have hup : empty.up = id := rfl
  refine ⟨hup ▸ Forest.refl n _, fun i _ j _ => ?_⟩
  rw [hup, Forest.rootOf_of_root rfl, Forest.rootOf_of_root rfl, joined_nil]

theorem find_forest {n : Nat} : ∀ (fuel : Nat) {q : GroupQuotient} {x : Nat}, Forest n (descent n) q.up → x < fuel →
    x < n → ∃ q', find fuel q x = some (q', rootOf n q.up x) ∧ Forest n (descent n) q'.up ∧
      ∀ z, rootOf n q'.up z = rootOf n q.up z := by
  intro fuel
  induction fuel with
  | zero => intro q x _ hx; omega
  | succ fuel ih =>
    intro q x h hx hn
    have henter := up_enter q x
    by_cases hp : q.up x = x
    · refine ⟨⟨Function.update q.parent x (some (q.up x))⟩, ?_, by rwa [henter], fun z => by rw [henter]⟩
      rw [Forest.rootOf_of_root hp, find_succ, if_pos hp]
    · -- the parent is lower, and so is everything above it
      have hlt := h.up x hp
      have hpn := h.inside x hn
      obtain ⟨q', hfind, h', hroots⟩ := ih (q := ⟨Function.update q.parent x (some (q.up x))⟩) (x := q.up x)
        (by rwa [henter]) (by rw [descent, descent] at hlt; omega) hpn
      rw [henter] at hfind hroots
      have hroot : rootOf n q.up (q.up x) = rootOf n q.up x := h.rootOf_parent x
      rw [hroot] at hfind
      obtain ⟨hset, hsame⟩ := h'.repoint hn (h.rootOf_lt hn) (hroot ▸ hlt.trans_le (h.height_le_rootOf _))
        (by rw [hroots, hroots, h.rootOf_rootOf])
      have hup := up_update q'.parent x (rootOf n q.up x)
      refine ⟨⟨Function.update q'.parent x (some (rootOf n q.up x))⟩, ?_, hup ▸ hset, fun z => ?_⟩
      · rw [find_succ, if_neg hp, hfind]
        rfl
      · rw [hup]
        exact (hsame z).trans (hroots z)

theorem find_spec {n : Nat} {es : List (Nat × Nat)} {q : GroupQuotient} (h : q.Holds n es) {x : Nat} (hx : x < n) :
    ∃ q', find (x + 1) q x = some (q', rootOf n q.up x) ∧ (∀ z, rootOf n q'.up z = rootOf n q.up z) ∧
      q'.Holds n es := by
  obtain ⟨q', hfind, hforest, hroots⟩ := find_forest (x + 1) h.forest (Nat.lt_succ_self x) hx
  refine ⟨q', hfind, hroots, hforest, fun i hi j hj => ?_⟩
  rw [hroots, hroots]
  exact h.joined i hi j hj

theorem join_spec {n : Nat} {es : List (Nat × Nat)} {q : GroupQuotient} (h : q.Holds n es) {i j : Nat} (hi : i < n)
    (hj : j < n) : ∃ q' joined, q.join i j = some (q', joined) ∧ (joined = true ↔ ¬ Joined es i j) ∧
      q'.Holds n (if joined then es ++ [(i, j)] else es) := by
  obtain ⟨q₁, hfind₁, hroots₁, h₁⟩ := find_spec h hi
  obtain ⟨q₂, hfind₂, hroots₂, h₂⟩ := find_spec h₁ hj
  have hroots : ∀ z, rootOf n q₂.up z = rootOf n q.up z := fun z => (hroots₂ z).trans (hroots₁ z)
  rw [hroots₁] at hfind₂
  by_cases he : rootOf n q.up i = rootOf n q.up j
  · refine ⟨q₂, false, ?_, by simp [(h.joined i hi j hj).1 he], h₂⟩
    simp only [join, hfind₁, hfind₂, Option.bind_eq_bind, Option.bind_some, if_pos he]
    rfl
  · have hends : (rootOf n q₂.up i = min (rootOf n q.up i) (rootOf n q.up j) ∧
        rootOf n q₂.up j = max (rootOf n q.up i) (rootOf n q.up j)) ∨
        (rootOf n q₂.up i = max (rootOf n q.up i) (rootOf n q.up j) ∧
          rootOf n q₂.up j = min (rootOf n q.up i) (rootOf n q.up j)) := by
      rw [hroots, hroots]
      omega
    have hlink := h₂.forest.link_joined h₂.joined hi hj hends (by omega)
    rw [← up_update] at hlink
    refine ⟨⟨Function.update q₂.parent _ (some _)⟩, true, ?_, by simp [← h.joined i hi j hj, he], hlink.1, hlink.2⟩
    simp only [join, hfind₁, hfind₂, Option.bind_eq_bind, Option.bind_some, if_neg he]
    rfl

end GroupQuotient

/-! ## The selected forest -/

namespace SelectedSpanningForest

def Sound (s : SelectedSpanningForest) : Prop := ∃ es, s.selected.Holds [] es

def group (s : SelectedSpanningForest) (record : Node) : Option Nat := (s.selected.index record).map s.selected.root

theorem index_lt {s : VcgEdgeForest} {x : Node} {i : Nat} (h : s.index x = some i) : i < s.nodes.length :=
  (List.idxOf?_eq_some_iff.1 h).1

theorem Sound.group_lt {s : SelectedSpanningForest} (h : s.Sound) {record : Node} {g : Nat}
    (hg : s.group record = some g) : g < s.selected.parent.length := by
  obtain ⟨es, hes⟩ := h
  obtain ⟨i, hi, rfl⟩ := Option.map_eq_some_iff.1 hg
  rw [hes.parents]
  exact hes.root_lt (index_lt hi)

/-- The forest after lookups: paths are shorter, and nothing else differs. -/
structure Compressed (s s' : SelectedSpanningForest) : Prop where
  sound : s'.Sound
  group : s'.group = s.group
  broken : s'.broken = s.broken
  size : s'.selected.parent.length = s.selected.parent.length

theorem Sound.refl {s : SelectedSpanningForest} (h : s.Sound) : Compressed s s := ⟨h, rfl, rfl, rfl⟩

theorem Compressed.trans {s t u : SelectedSpanningForest} (h : Compressed s t) (h' : Compressed t u) : Compressed s u :=
  ⟨h'.sound, h'.group.trans h.group, h'.broken.trans h.broken, h'.size.trans h.size⟩

theorem representative_spec {s : SelectedSpanningForest} (h : s.Sound) (record : Node) :
    ∃ s', s.representative record = some (s', s.group record) ∧ Compressed s s' := by
  obtain ⟨es, hes⟩ := h
  unfold representative group
  cases hi : s.selected.index record with
  | none => exact ⟨s, rfl, Sound.refl ⟨es, hes⟩⟩
  | some i =>
    obtain ⟨selected, hfind, hnodes, hroot, -, hholds⟩ := VcgEdgeForest.find_spec hes (index_lt hi)
    refine ⟨{ s with selected }, ?_, ⟨es, hholds⟩, ?_, rfl, ?_⟩
    · simp only [hfind, Option.map_some]
      rfl
    · funext x
      simp only [SelectedSpanningForest.group, VcgEdgeForest.index, hnodes, hroot]
    · show selected.parent.length = s.selected.parent.length
      rw [hholds.parents, hes.parents, hnodes]

theorem new_sound {data : VcgPreScanData} {optionalEdges selectedEdges broken : List Edge} {required : VcgEdgeForest}
    {tree : SelectedSpanningForest} (hrequired : constructRequiredEdgeForest data optionalEdges = pure required)
    (htree : SelectedSpanningForest.new required selectedEdges broken = some tree) : tree.Sound := by
  obtain ⟨hholds, -, hnodup, -⟩ := constructRequiredEdgeForest_spec hrequired
  have hempty : VcgEdgeForest.Holds [] []
      ⟨required.nodes, List.range required.nodes.length, List.replicate required.nodes.length false⟩ :=
    VcgEdgeForest.holds_range hnodup List.length_replicate (fun i x hi => by simp [List.getElem?_replicate])
  obtain ⟨selected, hselected, htree⟩ := Option.bind_eq_some_iff.1 htree
  obtain rfl := Option.some.inj htree
  refine foldlM_inv (fun _ (s : VcgEdgeForest) => ∃ es, s.Holds [] es) (fun pre e post s s' _ ⟨es, hs⟩ hturn => ?_)
    ⟨[], by rw [hholds.parents]; exact hempty⟩ hselected
  cases hi : s.index e.1 with
  | none =>
    simp only [hi, Option.some.injEq] at hturn
    exact ⟨es, hturn ▸ hs⟩
  | some i =>
    cases hj : s.index e.2 with
    | none =>
      simp only [hi, hj, Option.some.injEq] at hturn
      exact ⟨es, hturn ▸ hs⟩
    | some j =>
      simp only [hi, hj] at hturn
      obtain ⟨s'', hunion, -, hholds'⟩ := VcgEdgeForest.union_spec hs (List.getElem?_eq_getElem (index_lt hi))
        (List.getElem?_eq_getElem (index_lt hj)) (.refl _ _) (.refl _ _)
      obtain rfl := Option.some.inj (hunion.symm.trans hturn)
      exact ⟨_, hholds'⟩

end SelectedSpanningForest

/-! ## The members -/

def recordOf (flat : RecordTable) (tree : SelectedSpanningForest) (name : VarName) : Option (Node × Nat × Nat) := do
  let (record, width) ← overconstrainedRecordInfo flat name
  let group ← tree.group record
  pure (record, width, group)

theorem recordOf_eq_some {flat : RecordTable} {tree : SelectedSpanningForest} {name : VarName} {record : Node}
    {width g : Nat} : recordOf flat tree name = some (record, width, g) ↔
      overconstrainedRecordInfo flat name = some (record, width) ∧ tree.group record = some g := by
  simp only [recordOf, Option.bind_eq_bind, Option.bind_eq_some_iff, Option.pure_def, Option.some.injEq]
  constructor
  · rintro ⟨⟨r, w⟩, hinfo, g', hg, h⟩
    obtain ⟨rfl, rfl, rfl⟩ : r = record ∧ w = width ∧ g' = g := by simpa using h
    exact ⟨hinfo, hg⟩
  · exact fun ⟨hinfo, hg⟩ => ⟨_, hinfo, g, hg, rfl⟩

def memberOf (flat : RecordTable) (tree : SelectedSpanningForest) (p : VarName × Nat) : SetMember :=
  match recordOf flat tree p.1 with
  | some (record, width, group) => ⟨some (record, width), group⟩
  | none => ⟨none, tree.selected.parent.length + p.2⟩

theorem setMember_spec (flat : RecordTable) {s tree : SelectedSpanningForest} (h : s.Compressed tree) (index : Nat)
    (name : VarName) : ∃ tree', setMember flat s.selected.parent.length tree index name =
      some (tree', memberOf flat s (name, index)) ∧ s.Compressed tree' := by
  unfold setMember memberOf recordOf
  cases hinfo : overconstrainedRecordInfo flat name with
  | none => exact ⟨tree, rfl, h⟩
  | some info =>
    obtain ⟨record, width⟩ := info
    obtain ⟨tree', hrep, h'⟩ := SelectedSpanningForest.representative_spec h.sound record
    rw [h.group] at hrep
    refine ⟨tree', ?_, h.trans h'⟩
    simp only [hrep, Option.bind_eq_bind, Option.bind_some]
    cases s.group record <;> rfl

theorem setMembers_spec (flat : RecordTable) {s : SelectedSpanningForest} (h : s.Sound) (names : List VarName) :
    ∃ tree, setMembers flat s names = some (tree, names.zipIdx.map (memberOf flat s)) ∧ s.Compressed tree := by
  obtain ⟨⟨tree, members⟩, hrun, hmembers, htree⟩ := foldlM_spec (l := names.zipIdx) (s := (s, ([] : List SetMember)))
    (f := fun (t : SelectedSpanningForest × List SetMember) (p : VarName × Nat) => do
      let turn ← setMember flat s.selected.parent.length t.1 p.2 p.1
      pure (turn.1, t.2 ++ [turn.2]))
    (fun pre t => t.2 = pre.map (memberOf flat s) ∧ s.Compressed t.1)
    (fun pre p post t _ ⟨hmembers, ht⟩ => by
      obtain ⟨tree', hmember, htree'⟩ := setMember_spec flat ht p.2 p.1
      exact ⟨(tree', t.2 ++ [memberOf flat s p]), by rw [hmember]; rfl, by rw [hmembers, List.map_append]; rfl, htree'⟩)
    ⟨rfl, h.refl⟩
  obtain rfl : members = _ := hmembers
  exact ⟨tree, hrun, htree⟩

/-! ## The chains of the groups -/

def equalPairs (links : List EqualityLink) : List (Nat × Nat) :=
  links.filterMap fun
    | .equal lhs rhs => some (lhs, rhs)
    | .constraint .. => none

def constraintEdges (links : List EqualityLink) : List Edge :=
  links.filterMap fun
    | .equal .. => none
    | .constraint lhs rhs _ => some (lhs, rhs)

@[simp] theorem equalPairs_append (l l' : List EqualityLink) : equalPairs (l ++ l') = equalPairs l ++ equalPairs l' :=
  List.filterMap_append

@[simp] theorem constraintEdges_append (l l' : List EqualityLink) :
    constraintEdges (l ++ l') = constraintEdges l ++ constraintEdges l' :=
  List.filterMap_append

/-- The members passed so far, of the groups `gs`, are chained group by group. -/
structure Chains (gs : List Nat) (s : Grouping) : Prop where
  count : (equalPairs s.links).length + s.groupOrder.length = gs.length
  plain : constraintEdges s.links = []
  nodup : s.groupOrder.Nodup
  mem : ∀ g, g ∈ s.groupOrder ↔ g ∈ gs
  inside : ∀ e ∈ equalPairs s.links, e.1 < gs.length ∧ e.2 < gs.length
  last : ∀ g i, s.lastMember g = some i → gs[i]? = some g ∧ ∀ j, gs[j]? = some g → Joined (equalPairs s.links) j i
  fresh : ∀ g, s.lastMember g = none → g ∉ gs
  first : ∀ g ∈ gs, ∃ i, s.firstMember g = some i ∧ gs[i]? = some g

theorem chains_nil : Chains [] ⟨[], [], fun _ => none, fun _ => none⟩ :=
  ⟨rfl, rfl, .nil, fun _ => Iff.rfl, fun _ he => absurd he List.not_mem_nil,
    fun _ _ h => (Option.some_ne_none _ h.symm).elim,
    fun _ _ => List.not_mem_nil, fun _ hg => absurd hg List.not_mem_nil⟩

theorem getElem?_of_append {gs : List Nat} {g x : Nat} {i : Nat} (h : gs[i]? = some x) : (gs ++ [g])[i]? = some x := by
  rw [List.getElem?_append_left (List.getElem?_eq_some_iff.1 h).1, h]

theorem getElem?_append_cases {gs : List Nat} {g x : Nat} {i : Nat} (h : (gs ++ [g])[i]? = some x) :
    gs[i]? = some x ∨ (i = gs.length ∧ x = g) := by
  rcases Nat.lt_trichotomy i gs.length with hi | hi | hi
  · exact .inl (by rwa [List.getElem?_append_left hi] at h)
  · subst hi
    rw [List.getElem?_concat_length] at h
    exact .inr ⟨rfl, (Option.some.inj h).symm⟩
  · rw [List.getElem?_eq_none (by simp; omega)] at h
    cases h

theorem Chains.relast {gs : List Nat} {s : Grouping} (h : Chains gs s) (s' : Grouping) (group : Nat)
    (hlinks : ∀ e ∈ equalPairs s.links, e ∈ equalPairs s'.links)
    (hlast : s'.lastMember = Function.update s.lastMember group (some gs.length))
    (hjoined : ∀ j, gs[j]? = some group → Joined (equalPairs s'.links) j gs.length) :
    (∀ g i, s'.lastMember g = some i → (gs ++ [group])[i]? = some g ∧
      ∀ j, (gs ++ [group])[j]? = some g → Joined (equalPairs s'.links) j i) ∧
      ∀ g, s'.lastMember g = none → g ∉ gs ++ [group] := by
  refine ⟨fun g i hi => ?_, fun g hg => ?_⟩
  · rw [hlast] at hi
    by_cases hg : g = group
    · subst hg
      rw [Function.update_self] at hi
      obtain rfl := Option.some.inj hi
      refine ⟨List.getElem?_concat_length, fun j hj => ?_⟩
      rcases getElem?_append_cases hj with hj | ⟨rfl, -⟩
      · exact hjoined j hj
      · exact .refl _ _
    · rw [Function.update_of_ne hg] at hi
      obtain ⟨hgi, hij⟩ := h.last g i hi
      refine ⟨getElem?_of_append hgi, fun j hj => ?_⟩
      rcases getElem?_append_cases hj with hj | ⟨-, hj⟩
      · exact (hij j hj).mono hlinks
      · exact absurd hj hg
  · rw [hlast] at hg
    by_cases hgroup : g = group
    · rw [hgroup, Function.update_self] at hg
      cases hg
    · rw [Function.update_of_ne hgroup] at hg
      rw [List.mem_append, List.mem_singleton, not_or]
      exact ⟨h.fresh g hg, hgroup⟩

theorem Chains.turn {gs : List Nat} {s : Grouping} (h : Chains gs s) (member : SetMember) :
    Chains (gs ++ [member.group]) (s.turn member gs.length) := by
  have hcount := h.count
  cases hlast : s.lastMember member.group with
  | some previous =>
    obtain ⟨hprevious, hjoined⟩ := h.last _ _ hlast
    have hmem : member.group ∈ gs := List.mem_of_getElem? hprevious
    have hlt : previous < gs.length := (List.getElem?_eq_some_iff.1 hprevious).1
    have hturn : s.turn member gs.length = { s with
        links := s.links ++ [.equal previous gs.length]
        lastMember := Function.update s.lastMember member.group (some gs.length) } := by
      simp only [Grouping.turn, hlast]
    have hpairs : equalPairs (s.links ++ [.equal previous gs.length]) = equalPairs s.links ++ [(previous, gs.length)] :=
      equalPairs_append _ _
    obtain ⟨hlasts, hfresh⟩ := h.relast (s.turn member gs.length) member.group
      (by rw [hturn, hpairs]; exact fun e he => List.mem_append_left _ he) (by rw [hturn])
      (fun j hj => by
        rw [hturn, hpairs]
        exact ((hjoined j hj).mono fun _ he => List.mem_append_left _ he).trans (.of_mem (by simp)))
    rw [hturn] at hlasts hfresh ⊢
    refine ⟨?_, ?_, h.nodup, fun g => ?_, fun e he => ?_, hlasts, hfresh, fun g hg => ?_⟩
    · show (equalPairs (s.links ++ [.equal previous gs.length])).length + s.groupOrder.length = _
      rw [hpairs, List.length_append, List.length_append, List.length_singleton, List.length_singleton]
      omega
    · rw [constraintEdges_append, h.plain]
      rfl
    · rw [h.mem, List.mem_append, List.mem_singleton]
      exact ⟨.inl, fun hg => hg.elim id (· ▸ hmem)⟩
    · rw [hpairs] at he
      rw [List.length_append, List.length_singleton]
      rcases List.mem_append.1 he with he | he
      · have := h.inside e he
        omega
      · rw [List.mem_singleton.1 he]
        exact ⟨by omega, Nat.lt_succ_self _⟩
    · have hg' : g ∈ gs := (List.mem_append.1 hg).elim id fun hg => List.mem_singleton.1 hg ▸ hmem
      obtain ⟨i, hi, hgi⟩ := h.first g hg'
      exact ⟨i, hi, getElem?_of_append hgi⟩
  | none =>
    have hnew : member.group ∉ gs := h.fresh _ hlast
    have hturn : s.turn member gs.length = { s with
        groupOrder := s.groupOrder ++ [member.group]
        firstMember := Function.update s.firstMember member.group (some gs.length)
        lastMember := Function.update s.lastMember member.group (some gs.length) } := by
      simp only [Grouping.turn, hlast]
    obtain ⟨hlasts, hfresh⟩ := h.relast (s.turn member gs.length) member.group
      (by rw [hturn]; exact fun e he => he) (by rw [hturn])
      (fun j hj => absurd (List.mem_of_getElem? hj) hnew)
    rw [hturn] at hlasts hfresh ⊢
    refine ⟨?_, h.plain, ?_, fun g => ?_, fun e he => ?_, hlasts, hfresh, fun g hg => ?_⟩
    · rw [List.length_append, List.length_append, List.length_singleton, ← Nat.add_assoc, hcount]
    · rw [List.nodup_append]
      refine ⟨h.nodup, List.nodup_singleton _, fun a ha b hb hab => hnew ?_⟩
      rw [← List.mem_singleton.1 hb, ← hab]
      exact (h.mem a).1 ha
    · rw [List.mem_append, List.mem_append, h.mem]
    · have := h.inside e he
      rw [List.length_append, List.length_singleton]
      omega
    · show ∃ i, Function.update s.firstMember member.group (some gs.length) g = some i ∧
        (gs ++ [member.group])[i]? = some g
      by_cases hgm : g = member.group
      · rw [hgm, Function.update_self]
        exact ⟨_, rfl, List.getElem?_concat_length⟩
      · rw [Function.update_of_ne hgm]
        obtain ⟨i, hi, hgi⟩ := h.first g ((List.mem_append.1 hg).resolve_right fun hg => hgm (List.mem_singleton.1 hg))
        exact ⟨i, hi, getElem?_of_append hgi⟩

theorem Grouping.build_chains (members : List SetMember) : Chains (members.map (·.group)) (Grouping.build members) := by
  have hrun := foldl_inv (l := members.zipIdx) (f := fun (s : Grouping) (p : SetMember × Nat) => s.turn p.1 p.2)
    (fun pre s => Chains (pre.map (·.1.group)) s)
    (fun pre p post s hl hs => by
      have hindex : p.2 = (pre.map (·.1.group)).length := by
        have hp : members.zipIdx[pre.length]? = some p := by rw [hl]; simp
        rw [List.getElem?_zipIdx] at hp
        obtain ⟨m, -, rfl⟩ := Option.map_eq_some_iff.1 hp
        simp
      rw [List.map_append, List.map_singleton, hindex]
      exact hs.turn p.1) chains_nil
  rwa [show members.zipIdx.map (fun p => p.1.group) = members.map (·.group) by
    rw [show (fun p : SetMember × Nat => p.1.group) = (·.group) ∘ Prod.fst from rfl, ← List.map_map,
      List.zipIdx_map_fst]]
    at hrun

theorem Chains.joined {gs : List Nat} {s : Grouping} (h : Chains gs s) {i j g : Nat} (hi : gs[i]? = some g)
    (hj : gs[j]? = some g) : Joined (equalPairs s.links) i j := by
  cases hlast : s.lastMember g with
  | none => exact absurd (List.mem_of_getElem? hi) (h.fresh g hlast)
  | some k => exact ((h.last g k hlast).2 i hi).trans ((h.last g k hlast).2 j hj).symm

/-! ## The broken edges -/

theorem recordWidths_isSome {members : List SetMember} {record : Node}
    (h : record ∈ OverconstrainedEquationForest.memberRecords members) :
    ∃ width, recordWidths members record = some width := by
  have hmem : record ∈ (members.filterMap (·.record)).map (·.1) := by
    rw [List.map_filterMap]
    exact h
  exact foldl_inv (l := members.filterMap (·.record))
    (f := fun (widths : Node → Option Nat) (p : Node × Nat) => Function.update widths p.1 (some p.2))
    (fun pre widths => ∀ record ∈ pre.map (·.1), ∃ width, widths record = some width)
    (fun pre p post widths _ hwidths record hrecord => by
      by_cases hp : record = p.1
      · exact ⟨p.2, by rw [hp, Function.update_self]⟩
      · rw [Function.update_of_ne hp]
        rw [List.map_append, List.mem_append] at hrecord
        exact hwidths record (hrecord.resolve_right fun hr => hp (List.mem_singleton.1 hr)))
    (s := fun _ => none) (fun _ hr => absurd hr List.not_mem_nil) record hmem

def groupPair (tree : SelectedSpanningForest) (edge : Edge) : Nat × Nat :=
  ((tree.group edge.1).getD 0, (tree.group edge.2).getD 0)

def constraintKeys (links : List EqualityLink) : List Edge :=
  (constraintEdges links).map fun edge => normalizeEdgeKey edge.1 edge.2

/-- What the pass over the broken edges keeps: the union-find takes the accepted edges, and a pair emitted is new. -/
structure Joins (n : Nat) (tree : SelectedSpanningForest) (broken : List Edge) (emitted : List Edge)
    (links : List EqualityLink) (s : Joining) : Prop where
  compressed : tree.Compressed s.tree
  accepted : ∀ e ∈ s.accepted, e ∈ broken
  quotient : s.quotient.Holds n (s.accepted.map (groupPair tree))
  acyclic : Acyclic (s.accepted.map (groupPair tree))
  equal : equalPairs s.links = equalPairs links
  keys : (constraintKeys s.links).Nodup
  fresh : ∀ k ∈ constraintKeys s.links, k ∉ emitted ∧ k ∈ s.emittedConstraints
  kept : ∀ k ∈ emitted, k ∈ s.emittedConstraints

section
variable {n : Nat} {tree : SelectedSpanningForest} {broken emitted : List Edge} {links : List EqualityLink}
  {s : Joining}

theorem Joins.emit (h : Joins n tree broken emitted links s) (edge : Edge) (width : Nat) :
    Joins n tree broken emitted links (s.emit edge width) := by
  unfold Joining.emit
  split
  swap
  · exact h
  · rename_i hnew
    have hkeys : constraintKeys (s.links ++ [.constraint edge.1 edge.2 width]) =
        constraintKeys s.links ++ [normalizeEdgeKey edge.1 edge.2] := by
      rw [constraintKeys, constraintEdges_append, List.map_append]
      rfl
    refine ⟨h.compressed, h.accepted, h.quotient, h.acyclic, ?_, ?_, fun k hk => ?_, fun k hk =>
      List.mem_cons_of_mem _ (h.kept k hk)⟩
    · rw [equalPairs_append, h.equal]
      exact List.append_nil _
    · rw [hkeys, List.nodup_append]
      refine ⟨h.keys, List.nodup_singleton _, fun a ha b hb hab => hnew.2 ?_⟩
      rw [← List.mem_singleton.1 hb, ← hab]
      exact (h.fresh a ha).2
    · rw [hkeys] at hk
      rcases List.mem_append.1 hk with hk | hk
      · exact (h.fresh k hk).imp_right (List.mem_cons_of_mem _)
      · rw [List.mem_singleton.1 hk]
        exact ⟨fun he => hnew.2 (h.kept _ he), List.mem_cons_self⟩

theorem joinBroken_spec (hsize : tree.selected.parent.length ≤ n) (htree : tree.Sound) {widths : Node → Option Nat} :
    ∀ (edges : List Edge) {s : Joining}, (∀ e ∈ edges, e ∈ broken) →
      (∀ e ∈ edges, (tree.group e.1).isSome ∧ (tree.group e.2).isSome ∧ (widths e.1).isSome ∧ (widths e.2).isSome) →
      Joins n tree broken emitted links s →
      ∃ s' error, joinBroken widths s edges = some (s', error) ∧ Joins n tree broken emitted links s' := by
  intro edges
  induction edges with
  | nil => exact fun {s} _ _ hs => ⟨s, none, rfl, hs⟩
  | cons edge rest ih =>
    intro s hbroken hends hs
    have hrest := fun {s} => ih (s := s) (fun e he => hbroken e (List.mem_cons_of_mem _ he))
      fun e he => hends e (List.mem_cons_of_mem _ he)
    obtain ⟨hlhs, hrhs, hlhsWidth, hrhsWidth⟩ := hends edge List.mem_cons_self
    obtain ⟨a, ha⟩ := Option.isSome_iff_exists.1 hlhs
    obtain ⟨b, hb⟩ := Option.isSome_iff_exists.1 hrhs
    obtain ⟨lhsWidth, hlhsWidth⟩ := Option.isSome_iff_exists.1 hlhsWidth
    obtain ⟨rhsWidth, hrhsWidth⟩ := Option.isSome_iff_exists.1 hrhsWidth
    obtain ⟨t₁, hrep₁, ht₁⟩ := SelectedSpanningForest.representative_spec hs.compressed.sound edge.1
    obtain ⟨t₂, hrep₂, ht₂⟩ := SelectedSpanningForest.representative_spec ht₁.sound edge.2
    rw [hs.compressed.group, ha] at hrep₁
    rw [ht₁.group, hs.compressed.group, hb] at hrep₂
    have htree₂ := (hs.compressed.trans ht₁).trans ht₂
    obtain ⟨q, joined, hjoin, hjoined, hq⟩ := GroupQuotient.join_spec hs.quotient
      ((htree.group_lt ha).trans_le hsize) ((htree.group_lt hb).trans_le hsize)
    have hpair : groupPair tree edge = (a, b) := by rw [groupPair, ha, hb]; rfl
    cases joined with
    | false =>
      obtain ⟨s', error, hrun, hs'⟩ := hrest (s := { s with tree := t₂, quotient := q })
        ⟨htree₂, hs.accepted, hq, hs.acyclic, hs.equal, hs.keys, hs.fresh, hs.kept⟩
      refine ⟨s', error, ?_, hs'⟩
      rw [joinBroken, hrep₁]
      simp only [Option.bind_eq_bind, Option.bind_some, hrep₂, hjoin]
      exact hrun
    | true =>
      have hmap : (s.accepted ++ [edge]).map (groupPair tree) = s.accepted.map (groupPair tree) ++ [(a, b)] := by
        rw [List.map_append, List.map_singleton, hpair]
      have hs₂ : Joins n tree broken emitted links
          { s with tree := t₂, quotient := q, accepted := s.accepted ++ [edge] } := by
        refine ⟨htree₂, fun e he => ?_, hmap ▸ hq, hmap ▸ hs.acyclic.append (hjoined.1 rfl), hs.equal, hs.keys,
          hs.fresh, hs.kept⟩
        rcases List.mem_append.1 he with he | he
        · exact hs.accepted e he
        · exact hbroken e (List.mem_singleton.1 he ▸ List.mem_cons_self)
      by_cases hw : lhsWidth = rhsWidth
      · obtain ⟨s', error, hrun, hs'⟩ := hrest (hs₂.emit edge lhsWidth)
        refine ⟨s', error, ?_, hs'⟩
        rw [joinBroken, hrep₁]
        simp only [Option.bind_eq_bind, Option.bind_some, hrep₂, hjoin, hlhsWidth, hrhsWidth, if_pos hw]
        exact hrun
      · refine ⟨_, some (mismatchedWidths edge.1 edge.2 lhsWidth rhsWidth), ?_, hs₂⟩
        rw [joinBroken, hrep₁]
        simp only [Option.bind_eq_bind, Option.bind_some, hrep₂, hjoin, hlhsWidth, hrhsWidth, if_neg hw]
        rfl

end

/-! ## The groups left -/

def memberGroups (gs : List Nat) (e : Nat × Nat) : Nat × Nat := (gs.getD e.1 0, gs.getD e.2 0)

theorem anchorGroups_spec {n : Nat} {gs : List Nat} {first : Nat → Option Nat} {qs : List (Nat × Nat)}
    {q : GroupQuotient} (hlt : ∀ g ∈ gs, g < n)
    (hfirst : ∀ g ∈ gs, ∃ i, first g = some i ∧ gs[i]? = some g) (hq : q.Holds n qs) (hacyclic : Acyclic qs)
    {anchor : Nat} (hanchor : anchor ∈ gs) {rest : List Nat} (hrest : ∀ g ∈ rest, g ∈ gs) (links : List EqualityLink) :
    ∃ q' links' pairs, rest.foldlM (anchorGroup first anchor) (q, links) = some (q', links') ∧
      equalPairs links' = equalPairs links ++ pairs ∧ constraintEdges links' = constraintEdges links ∧
      (∀ e ∈ pairs, e.1 < gs.length ∧ e.2 < gs.length) ∧ Acyclic (qs ++ pairs.map (memberGroups gs)) ∧
      ∀ g ∈ rest, Joined (qs ++ pairs.map (memberGroups gs)) anchor g := by
  obtain ⟨⟨q', links'⟩, hrun, pairs, hequal, hconstraints, hinside, -, hac, hspan⟩ := foldlM_spec (l := rest)
    (s := (q, links)) (f := anchorGroup first anchor)
    (fun pre t => ∃ pairs, equalPairs t.2 = equalPairs links ++ pairs ∧ constraintEdges t.2 = constraintEdges links ∧
      (∀ e ∈ pairs, e.1 < gs.length ∧ e.2 < gs.length) ∧ t.1.Holds n (qs ++ pairs.map (memberGroups gs)) ∧
      Acyclic (qs ++ pairs.map (memberGroups gs)) ∧ ∀ g ∈ pre, Joined (qs ++ pairs.map (memberGroups gs)) anchor g)
    (fun pre g post t hl ⟨pairs, hequal, hconstraints, hinside, ht, hac, hspan⟩ => by
      have hg : g ∈ gs := hrest g (by rw [hl]; simp)
      obtain ⟨q', joined, hjoin, hjoined, hq'⟩ := GroupQuotient.join_spec ht (hlt anchor hanchor) (hlt g hg)
      cases joined with
      | false =>
        refine ⟨(q', t.2), by simp only [anchorGroup, hjoin, Option.bind_eq_bind, Option.bind_some]; rfl, pairs, hequal,
          hconstraints, hinside, hq', hac, fun x hx => ?_⟩
        rcases List.mem_append.1 hx with hx | hx
        · exact hspan x hx
        · rw [List.mem_singleton.1 hx]
          by_contra hnot
          exact absurd (hjoined.2 hnot) Bool.false_ne_true
      | true =>
        obtain ⟨i, hi, hgi⟩ := hfirst anchor hanchor
        obtain ⟨j, hj, hgj⟩ := hfirst g hg
        have hpair : memberGroups gs (i, j) = (anchor, g) := by
          simp only [memberGroups, List.getD_eq_getElem?_getD, hgi, hgj, Option.getD_some]
        have hmap : qs ++ (pairs ++ [(i, j)]).map (memberGroups gs) =
            qs ++ pairs.map (memberGroups gs) ++ [(anchor, g)] := by
          rw [List.map_append, List.map_singleton, hpair, List.append_assoc]
        refine ⟨(q', t.2 ++ [.equal i j]), ?_, pairs ++ [(i, j)], ?_, ?_, fun e he => ?_, hmap ▸ hq',
          hmap ▸ hac.append (hjoined.1 rfl), fun x hx => ?_⟩
        · simp only [anchorGroup, hjoin, hi, hj, Option.bind_eq_bind, Option.bind_some]
          rfl
        · rw [equalPairs_append, hequal, List.append_assoc]
          rfl
        · rw [constraintEdges_append, hconstraints]
          exact List.append_nil _
        · rcases List.mem_append.1 he with he | he
          · exact hinside e he
          · rw [List.mem_singleton.1 he]
            exact ⟨(List.getElem?_eq_some_iff.1 hgi).1, (List.getElem?_eq_some_iff.1 hgj).1⟩
        · rw [hmap]
          rcases List.mem_append.1 hx with hx | hx
          · exact (hspan x hx).mono fun _ he => List.mem_append_left _ he
          · rw [List.mem_singleton.1 hx]
            exact .of_mem (by simp))
    ⟨[], by simp, rfl, fun e he => absurd he List.not_mem_nil, by simpa using hq, by simpa using hacyclic,
      fun g hg => absurd hg List.not_mem_nil⟩
  exact ⟨q', links', pairs, hrun, hequal, hconstraints, hinside, hac, hspan⟩

/-! ## One connection set -/

/-- A member of the set is a field of `record`. -/
def HasRecord (flat : RecordTable) (names : List VarName) (i : Nat) (record : Node) : Prop :=
  ∃ name width, names[i]? = some name ∧ overconstrainedRecordInfo flat name = some (record, width)

/-- Two members that a broken edge joins, through its records. -/
def IsJoin (flat : RecordTable) (names : List VarName) (edge : Edge) (p : Nat × Nat) : Prop :=
  HasRecord flat names p.1 edge.1 ∧ HasRecord flat names p.2 edge.2

/-- The equalities, with the joins of the accepted broken edges, are a spanning tree of the members. -/
structure LinksSet (flat : RecordTable) (names : List VarName) (broken : List Edge) (linked : EmittedLinks) : Prop where
  accepted : ∀ e ∈ linked.accepted, e ∈ broken
  joins : ∃ joins, List.Forall₂ (IsJoin flat names) linked.accepted joins
  spanning : ∀ joins, List.Forall₂ (IsJoin flat names) linked.accepted joins →
    IsSpanningTree names.length (equalPairs linked.links ++ joins)

section
variable {flat : RecordTable} {tree : SelectedSpanningForest} {names : List VarName}

def membersOf (flat : RecordTable) (tree : SelectedSpanningForest) (names : List VarName) : List SetMember :=
  names.zipIdx.map (memberOf flat tree)

def groupList (flat : RecordTable) (tree : SelectedSpanningForest) (names : List VarName) : List Nat :=
  (membersOf flat tree names).map (·.group)

theorem membersOf_get {i : Nat} {name : VarName} (h : names[i]? = some name) :
    (membersOf flat tree names)[i]? = some (memberOf flat tree (name, i)) := by
  simp [membersOf, h]

theorem groups_length (flat : RecordTable) (tree : SelectedSpanningForest) (names : List VarName) :
    (groupList flat tree names).length = names.length := by simp [groupList, membersOf]

theorem groups_lt (h : tree.Sound) {g : Nat} (hg : g ∈ groupList flat tree names) :
    g < tree.selected.parent.length + names.length := by
  obtain ⟨m, hm, rfl⟩ := List.mem_map.1 hg
  obtain ⟨⟨name, i⟩, hp, rfl⟩ := List.mem_map.1 hm
  have hi : i < names.length := by simpa using List.snd_lt_of_mem_zipIdx hp
  unfold memberOf
  cases hrecord : recordOf flat tree name with
  | none =>
    show tree.selected.parent.length + i < _
    omega
  | some r => exact Nat.lt_add_right _ (h.group_lt (recordOf_eq_some.1 hrecord).2)

theorem HasRecord.group {i g : Nat} {record : Node} (h : HasRecord flat names i record)
    (hg : tree.group record = some g) :
    (groupList flat tree names)[i]? = some g := by
  obtain ⟨name, width, hname, hinfo⟩ := h
  have hrecord : recordOf flat tree name = some (record, width, g) := recordOf_eq_some.2 ⟨hinfo, hg⟩
  rw [groupList, List.getElem?_map, membersOf_get hname]
  simp only [memberOf, hrecord, Option.map_some]

theorem hasRecord_of_mem {record : Node}
    (h : record ∈ OverconstrainedEquationForest.memberRecords (membersOf flat tree names)) :
    (∃ i, HasRecord flat names i record) ∧ ∃ g, tree.group record = some g := by
  obtain ⟨m, hm, hrecord⟩ := List.mem_filterMap.1 h
  obtain ⟨⟨name, i⟩, hp, rfl⟩ := List.mem_map.1 hm
  have hname : names[i]? = some name := by simpa using List.mem_zipIdx_iff_getElem?.1 hp
  unfold memberOf at hrecord
  cases hr : recordOf flat tree name with
  | none =>
    rw [hr] at hrecord
    cases hrecord
  | some r =>
    rw [hr] at hrecord
    obtain rfl : r.1 = record := Option.some.inj hrecord
    obtain ⟨hinfo, hgroup⟩ := recordOf_eq_some.1 hr
    exact ⟨⟨i, name, r.2.1, hname, hinfo⟩, r.2.2, hgroup⟩

/-! ### A set without a broken edge -/

theorem equalPairs_chain (n : Nat) :
    equalPairs (OverconstrainedEquationForest.chain n) = (List.range' 1 (n - 1)).map fun rhs => (rhs - 1, rhs) := by
  rw [equalPairs, OverconstrainedEquationForest.chain, List.filterMap_map, ← List.filterMap_eq_map]
  rfl

theorem constraintEdges_chain (n : Nat) : constraintEdges (OverconstrainedEquationForest.chain n) = [] := by
  rw [constraintEdges, OverconstrainedEquationForest.chain, List.filterMap_map, List.filterMap_eq_nil_iff]
  exact fun _ _ => rfl

theorem chain_spanning {n : Nat} (hn : 0 < n) :
    IsSpanningTree n (equalPairs (OverconstrainedEquationForest.chain n)) := by
  rw [equalPairs_chain]
  have hmem : ∀ i, i + 1 < n → (i, i + 1) ∈ (List.range' 1 (n - 1)).map fun rhs => (rhs - 1, rhs) := fun i hi =>
    List.mem_map.2 ⟨i + 1, by rw [List.mem_range'_1]; omega, rfl⟩
  -- every member is joined to the first, one link at a time
  have hzero : ∀ i < n, Joined ((List.range' 1 (n - 1)).map fun rhs => (rhs - 1, rhs)) 0 i := by
    intro i
    induction i with
    | zero => exact fun _ => .refl _ _
    | succ i ih => exact fun hi => (ih (by omega)).trans (.of_mem (hmem i hi))
  refine ⟨fun e he => ?_, fun i hi j hj => (hzero i hi).symm.trans (hzero j hj), ?_⟩
  · obtain ⟨k, hk, rfl⟩ := List.mem_map.1 he
    rw [List.mem_range'_1] at hk
    exact ⟨by show k - 1 < n; omega, by show k < n; omega⟩
  · rw [List.length_map, List.length_range']
    omega

/-! ### A set with broken edges -/

theorem joins_groups {joins : List (Nat × Nat)} {accepted : List Edge}
    (hgroup : ∀ e ∈ accepted, (∃ g, tree.group e.1 = some g) ∧ ∃ g, tree.group e.2 = some g)
    (h : List.Forall₂ (IsJoin flat names) accepted joins) :
    joins.map (memberGroups (groupList flat tree names)) = accepted.map (groupPair tree) ∧
      ∀ p ∈ joins, p.1 < names.length ∧ p.2 < names.length := by
  induction h with
  | nil => exact ⟨rfl, fun p hp => absurd hp List.not_mem_nil⟩
  | @cons e p accepted joins hp _ ih =>
    obtain ⟨hmap, hlt⟩ := ih fun e he => hgroup e (List.mem_cons_of_mem _ he)
    obtain ⟨⟨a, ha⟩, b, hb⟩ := hgroup e List.mem_cons_self
    have hpa := hp.1.group ha
    have hpb := hp.2.group hb
    refine ⟨?_, fun r hr => ?_⟩
    · rw [List.map_cons, List.map_cons, hmap, memberGroups, groupPair, List.getD_eq_getElem?_getD, hpa,
        List.getD_eq_getElem?_getD, hpb, ha, hb]
    · rcases List.mem_cons.1 hr with rfl | hr
      · obtain ⟨_, _, h₁, -⟩ := hp.1
        obtain ⟨_, _, h₂, -⟩ := hp.2
        exact ⟨(List.getElem?_eq_some_iff.1 h₁).1, (List.getElem?_eq_some_iff.1 h₂).1⟩
      · exact hlt r hr

def BetweenMembers (flat : RecordTable) (tree : SelectedSpanningForest) (names : List VarName) (e : Edge) : Prop :=
  ((∃ i, HasRecord flat names i e.1) ∧ ∃ g, tree.group e.1 = some g) ∧
    (∃ i, HasRecord flat names i e.2) ∧ ∃ g, tree.group e.2 = some g

theorem exists_joins : ∀ {accepted : List Edge}, (∀ e ∈ accepted, BetweenMembers flat tree names e) →
    ∃ joins, List.Forall₂ (IsJoin flat names) accepted joins
  | [], _ => ⟨[], .nil⟩
  | e :: _, h => by
    obtain ⟨⟨⟨i, hi⟩, -⟩, ⟨j, hj⟩, -⟩ := h e List.mem_cons_self
    obtain ⟨joins, hjoins⟩ := exists_joins fun f hf => h f (List.mem_cons_of_mem _ hf)
    exact ⟨(i, j) :: joins, .cons ⟨hi, hj⟩ hjoins⟩

theorem linksSet_of_groups {grouping : Grouping} (hchains : Chains (groupList flat tree names) grouping)
    {anchor : Nat} {rest : List Nat} (horder : grouping.groupOrder = anchor :: rest) {broken accepted : List Edge}
    (hbroken : ∀ e ∈ accepted, e ∈ broken) (hrecords : ∀ e ∈ accepted, BetweenMembers flat tree names e)
    {links : List EqualityLink} {pairs : List (Nat × Nat)}
    (hequal : equalPairs links = equalPairs grouping.links ++ pairs)
    (hinside : ∀ e ∈ pairs, e.1 < names.length ∧ e.2 < names.length)
    (hacyclic : Acyclic (accepted.map (groupPair tree) ++ pairs.map (memberGroups (groupList flat tree names))))
    (hspan : ∀ g ∈ rest, Joined (accepted.map (groupPair tree) ++
      pairs.map (memberGroups (groupList flat tree names))) anchor g) :
    LinksSet flat names broken ⟨links, accepted⟩ := by
  have hlength := groups_length flat tree names
  have hget : ∀ i < names.length, (groupList flat tree names)[i]? =
      some ((groupList flat tree names).getD i 0) := by
    intro i hi
    rw [List.getD_eq_getElem?_getD, List.getElem?_eq_getElem (hlength ▸ hi), Option.getD_some]
  refine ⟨hbroken, exists_joins hrecords, fun joins hjoins => ?_⟩
  obtain ⟨hgroups, hjoinsInside⟩ := joins_groups (fun e he => ⟨(hrecords e he).1.2, (hrecords e he).2.2⟩) hjoins
  have houter : accepted.map (groupPair tree) ++ pairs.map (memberGroups (groupList flat tree names)) =
      (joins ++ pairs).map (memberGroups (groupList flat tree names)) := by
    rw [List.map_append, hgroups]
  rw [houter] at hacyclic hspan
  have hpairs : ∀ e ∈ joins ++ pairs, e.1 < names.length ∧ e.2 < names.length := fun e he =>
    (List.mem_append.1 he).elim (hjoinsInside e) (hinside e)
  have hanchor : anchor ∈ grouping.groupOrder := horder ▸ List.mem_cons_self
  have hsame : ∀ i < names.length, ∀ j < names.length,
      (groupList flat tree names).getD i 0 = (groupList flat tree names).getD j 0 →
        Joined (equalPairs grouping.links) i j := fun i hi j hj hij => hchains.joined (hget i hi) (hij ▸ hget j hj)
  have hmem : ∀ g, g ∈ grouping.groupOrder ↔
      ∃ i < names.length, (groupList flat tree names).getD i 0 = g := by
    intro g
    rw [hchains.mem, List.mem_iff_getElem?]
    constructor
    · rintro ⟨i, hi⟩
      have hlt := hlength ▸ (List.getElem?_eq_some_iff.1 hi).1
      exact ⟨i, hlt, Option.some.inj ((hget i hlt).symm.trans hi)⟩
    · rintro ⟨i, hi, rfl⟩
      exact ⟨i, hget i hi⟩
  have hreach : ∀ g ∈ grouping.groupOrder,
      Joined ((joins ++ pairs).map (memberGroups (groupList flat tree names))) anchor g := by
    intro g hg
    rw [horder] at hg
    rcases List.mem_cons.1 hg with rfl | hg
    · exact .refl _ _
    · exact hspan g hg
  refine (isSpanningTree_of_groups (hlength ▸ hchains.inside) hpairs hsame (hchains.count.trans hlength) hchains.nodup
    hmem hanchor hacyclic hreach).perm ?_
  show (equalPairs grouping.links ++ (joins ++ pairs)).Perm (equalPairs links ++ joins)
  rw [hequal, List.append_assoc]
  exact List.perm_append_comm.append_left _

/-- What a call keeps, and what it returns. -/
structure CallSpec (before : OverconstrainedEquationForest) (flat : RecordTable) (names : List VarName)
    (broken : List Edge) (after : OverconstrainedEquationForest) (result : Except String EmittedLinks) : Prop where
  compressed : before.tree.Compressed after.tree
  kept : ∀ k ∈ before.emittedConstraints, k ∈ after.emittedConstraints
  links : ∀ linked, result = .ok linked → names ≠ [] → LinksSet flat names broken linked
  keys : ∀ linked, result = .ok linked → (constraintKeys linked.links).Nodup
  fresh : ∀ linked, result = .ok linked → ∀ k ∈ constraintKeys linked.links,
    k ∉ before.emittedConstraints ∧ k ∈ after.emittedConstraints

theorem partitionedLinks_spec (before : OverconstrainedEquationForest) (htree : tree.Compressed before.tree)
    (hsound : tree.Sound) {broken : List Edge}
    (hbroken : ∀ e ∈ broken, e.1 ∈ OverconstrainedEquationForest.memberRecords (membersOf flat tree names) ∧
      e.2 ∈ OverconstrainedEquationForest.memberRecords (membersOf flat tree names)) :
    ∃ after result, before.partitionedLinks (membersOf flat tree names) broken = some (after, result) ∧
      CallSpec ⟨tree, before.emittedConstraints⟩ flat names broken after result := by
  have hchains : Chains (groupList flat tree names) (Grouping.build (membersOf flat tree names)) :=
    Grouping.build_chains (membersOf flat tree names)
  have hrecords : ∀ e ∈ broken, BetweenMembers flat tree names e := fun e he =>
    ⟨hasRecord_of_mem (hbroken e he).1, hasRecord_of_mem (hbroken e he).2⟩
  have hstart : Joins (tree.selected.parent.length + names.length) tree broken before.emittedConstraints
      (Grouping.build (membersOf flat tree names)).links
      ⟨before.tree, before.emittedConstraints, .empty, (Grouping.build (membersOf flat tree names)).links, []⟩ := by
    have hnone : constraintKeys (Grouping.build (membersOf flat tree names)).links = [] := by
      rw [constraintKeys, hchains.plain, List.map_nil]
    refine ⟨htree, fun e he => absurd he List.not_mem_nil, GroupQuotient.holds_empty _, acyclic_nil, rfl,
      hnone ▸ List.nodup_nil, fun k hk => ?_, fun k hk => hk⟩
    rw [hnone] at hk
    exact absurd hk List.not_mem_nil
  have hends : ∀ e ∈ broken, (tree.group e.1).isSome ∧ (tree.group e.2).isSome ∧
      (recordWidths (membersOf flat tree names) e.1).isSome ∧
      (recordWidths (membersOf flat tree names) e.2).isSome := by
    intro e he
    obtain ⟨⟨-, ha⟩, -, hb⟩ := hrecords e he
    exact ⟨Option.isSome_iff_exists.2 ha, Option.isSome_iff_exists.2 hb,
      Option.isSome_iff_exists.2 (recordWidths_isSome (hbroken e he).1),
      Option.isSome_iff_exists.2 (recordWidths_isSome (hbroken e he).2)⟩
  obtain ⟨s, error, hrun, hs⟩ := joinBroken_spec (Nat.le_add_right _ _) hsound broken (fun e he => he) hends hstart
  unfold OverconstrainedEquationForest.partitionedLinks
  simp only [hrun, Option.bind_eq_bind, Option.bind_some]
  cases error with
  | some message =>
    refine ⟨⟨s.tree, s.emittedConstraints⟩, .error message, rfl, hs.compressed, hs.kept, fun _ h => ?_, fun _ h => ?_,
      fun _ h => ?_⟩
    all_goals cases h
  | none =>
    cases horder : (Grouping.build (membersOf flat tree names)).groupOrder with
    | nil =>
      -- no group: the set is empty
      have hnil : names = [] := by
        have hcount := hchains.count
        have hempty : groupList flat tree names = [] :=
          List.eq_nil_iff_forall_not_mem.2 fun g hg => by
            rw [← hchains.mem, horder] at hg
            exact List.not_mem_nil hg
        rw [← List.length_eq_zero_iff, ← groups_length flat tree names, hempty, List.length_nil]
      refine ⟨⟨s.tree, s.emittedConstraints⟩, .ok ⟨s.links, s.accepted⟩, rfl, hs.compressed, hs.kept,
        fun _ _ h => absurd hnil h, fun _ h => ?_, fun _ h => ?_⟩
      · exact (Except.ok.inj h) ▸ hs.keys
      · exact (Except.ok.inj h) ▸ hs.fresh
    | cons anchor rest =>
      have hmem : ∀ g ∈ anchor :: rest, g ∈ groupList flat tree names := fun g hg =>
        (hchains.mem g).1 (horder ▸ hg)
      obtain ⟨q, links, pairs, hanchors, hequal, hconstraints, hinside, hacyclic, hspan⟩ := anchorGroups_spec
        (fun g hg => groups_lt hsound hg) hchains.first hs.quotient hs.acyclic (hmem anchor List.mem_cons_self)
        (fun g hg => hmem g (List.mem_cons_of_mem _ hg)) s.links
      have hkeys : constraintKeys links = constraintKeys s.links := by rw [constraintKeys, hconstraints, constraintKeys]
      simp only [hanchors, Option.bind_some]
      refine ⟨⟨s.tree, s.emittedConstraints⟩, .ok ⟨links, s.accepted⟩, rfl, hs.compressed, hs.kept,
        fun linked h _ => ?_, fun linked h => ?_, fun linked h => ?_⟩
      · obtain rfl := Except.ok.inj h
        exact linksSet_of_groups hchains horder hs.accepted (fun e he => hrecords e (hs.accepted e he))
          (hs.equal ▸ hequal) (groups_length flat tree names ▸ hinside) hacyclic hspan
      · obtain rfl := Except.ok.inj h
        exact hkeys ▸ hs.keys
      · obtain rfl := Except.ok.inj h
        exact hkeys ▸ hs.fresh

theorem equalityLinks_spec {before : OverconstrainedEquationForest} (hsound : before.tree.Sound) (flat : RecordTable)
    (names : List VarName) : ∃ after result, before.equalityLinks flat names = some (after, result) ∧
      CallSpec before flat names before.tree.broken after result := by
  obtain ⟨tree, hmembers, htree⟩ := setMembers_spec flat hsound names
  rw [← membersOf] at hmembers
  unfold OverconstrainedEquationForest.equalityLinks
  simp only [hmembers, Option.bind_eq_bind, Option.bind_some]
  split
  · have hnone : constraintKeys (OverconstrainedEquationForest.chain names.length) = [] := by
      rw [constraintKeys, constraintEdges_chain, List.map_nil]
    refine ⟨⟨tree, before.emittedConstraints⟩, .ok ⟨OverconstrainedEquationForest.chain names.length, []⟩, rfl, htree,
      fun k hk => hk, fun linked h hne => ?_, fun linked h => ?_, fun linked h => ?_⟩
    · obtain rfl := Except.ok.inj h
      refine ⟨fun e he => absurd he List.not_mem_nil, ⟨[], .nil⟩, fun joins hjoins => ?_⟩
      rw [List.forall₂_nil_left_iff.1 hjoins, List.append_nil]
      exact chain_spanning (List.length_pos_iff.2 hne)
    · obtain rfl := Except.ok.inj h
      exact hnone ▸ List.nodup_nil
    · obtain rfl := Except.ok.inj h
      rw [hnone]
      exact fun k hk => absurd hk List.not_mem_nil
  · have hbroken : ∀ e ∈ tree.broken.filter (fun edge =>
        edge.1 ∈ OverconstrainedEquationForest.memberRecords (membersOf flat before.tree names) ∧
          edge.2 ∈ OverconstrainedEquationForest.memberRecords (membersOf flat before.tree names)),
        e.1 ∈ OverconstrainedEquationForest.memberRecords (membersOf flat before.tree names) ∧
          e.2 ∈ OverconstrainedEquationForest.memberRecords (membersOf flat before.tree names) :=
      fun e he => by simpa using (List.mem_filter.1 he).2
    obtain ⟨after, result, hrun, hspec⟩ := partitionedLinks_spec ⟨tree, before.emittedConstraints⟩ htree hsound hbroken
    refine ⟨after, result, hrun, hspec.compressed, hspec.kept, fun linked h hne => ?_, hspec.keys, hspec.fresh⟩
    have hlinks := hspec.links linked h hne
    refine ⟨fun e he => ?_, hlinks.joins, hlinks.spanning⟩
    have := (List.mem_filter.1 (hlinks.accepted e he)).1
    rwa [htree.broken] at this

end

/-! ## A sequence of connection sets -/

def emittedPairs : Except String EmittedLinks → List (Sym2 Node)
  | .ok linked => (constraintEdges linked.links).map fun edge => s(edge.1, edge.2)
  | .error _ => []

theorem normalizeEdgeKey_eq {a b c d : Node} (h : s(a, b) = s(c, d)) : normalizeEdgeKey a b = normalizeEdgeKey c d := by
  rcases Sym2.eq_iff.1 h with ⟨rfl, rfl⟩ | ⟨rfl, rfl⟩
  · rfl
  · rcases lt_trichotomy a b with hab | rfl | hab
    · simp [normalizeEdgeKey, hab.le, not_le.2 hab]
    · rfl
    · simp [normalizeEdgeKey, hab.le, not_le.2 hab]

theorem emittedPairs_nodup {before after : OverconstrainedEquationForest} {flat : RecordTable} {names : List VarName}
    {broken : List Edge} {result : Except String EmittedLinks} (h : CallSpec before flat names broken after result) :
    (emittedPairs result).Nodup ∧ ∀ e : Edge, s(e.1, e.2) ∈ emittedPairs result →
      normalizeEdgeKey e.1 e.2 ∉ before.emittedConstraints ∧ normalizeEdgeKey e.1 e.2 ∈ after.emittedConstraints := by
  cases result with
  | error message => exact ⟨List.nodup_nil, fun e he => absurd he List.not_mem_nil⟩
  | ok linked =>
    have hkeys := h.keys linked rfl
    rw [constraintKeys, List.nodup_iff_pairwise_ne, List.pairwise_map] at hkeys
    refine ⟨?_, fun e he => ?_⟩
    · rw [emittedPairs, List.nodup_iff_pairwise_ne, List.pairwise_map]
      exact hkeys.imp fun hne heq => hne (normalizeEdgeKey_eq heq)
    · obtain ⟨f, hf, hfe⟩ := List.mem_map.1 he
      rw [← normalizeEdgeKey_eq hfe]
      exact h.fresh linked rfl _ (List.mem_map_of_mem hf)

theorem equalityLinksOfSets_spec : ∀ (sets : List (RecordTable × List VarName))
    (before : OverconstrainedEquationForest), before.tree.Sound →
    ∃ after results, before.equalityLinksOfSets sets = some (after, results) ∧
      List.Forall₂ (fun set result => ∀ linked, result = .ok linked → set.2 ≠ [] →
        LinksSet set.1 set.2 before.tree.broken linked) sets results ∧
      (results.flatMap emittedPairs).Nodup ∧ ∀ e : Edge, s(e.1, e.2) ∈ results.flatMap emittedPairs →
        normalizeEdgeKey e.1 e.2 ∉ before.emittedConstraints := by
  intro sets
  induction sets with
  | nil => exact fun before _ => ⟨before, [], rfl, .nil, List.nodup_nil, fun e he => absurd he List.not_mem_nil⟩
  | cons set sets ih =>
    intro before hsound
    obtain ⟨middle, result, hcall, hspec⟩ := equalityLinks_spec hsound set.1 set.2
    obtain ⟨after, results, hrun, hlinks, hnodup, hfresh⟩ := ih middle hspec.compressed.sound
    obtain ⟨hnodup', hfresh'⟩ := emittedPairs_nodup hspec
    refine ⟨after, result :: results, ?_, .cons hspec.links (hspec.compressed.broken ▸ hlinks), ?_, fun e he => ?_⟩
    · simp only [OverconstrainedEquationForest.equalityLinksOfSets, hcall, hrun, Option.bind_eq_bind, Option.bind_some]
      rfl
    · rw [List.flatMap_cons, List.nodup_append]
      refine ⟨hnodup', hnodup, fun a ha b hb hab => ?_⟩
      subst hab
      induction a using Sym2.ind with
      | _ x y => exact hfresh (x, y) hb (hfresh' (x, y) ha).2
    · rw [List.flatMap_cons, List.mem_append] at he
      rcases he with he | he
      · exact (hfresh' e he).1
      · exact fun hk => hfresh e he (hspec.kept _ hk)

/-- From every selected forest, for every sequence of connection sets: the equalities of a call and the joins of the
broken edges it accepted are a spanning tree of the members, and no record pair has two constraints. -/
theorem equalityLinksOfSets_spanning {data : VcgPreScanData} {optionalEdges selectedEdges broken : List Edge}
    {required : VcgEdgeForest} {tree : SelectedSpanningForest}
    (hrequired : constructRequiredEdgeForest data optionalEdges = pure required)
    (htree : SelectedSpanningForest.new required selectedEdges broken = some tree)
    (sets : List (RecordTable × List VarName)) :
    ∃ after results, (OverconstrainedEquationForest.new tree).equalityLinksOfSets sets = some (after, results) ∧
      List.Forall₂ (fun set result => ∀ linked, result = .ok linked → set.2 ≠ [] →
        LinksSet set.1 set.2 tree.broken linked) sets results ∧
      (results.flatMap emittedPairs).Nodup := by
  obtain ⟨after, results, hrun, hlinks, hnodup, -⟩ := equalityLinksOfSets_spec sets
    (OverconstrainedEquationForest.new tree) (SelectedSpanningForest.new_sound hrequired htree)
  exact ⟨after, results, hrun, hlinks, hnodup⟩

/-! A loop of records: the first set has a chain, a constraint and two anchors; the second only repeats the pair. -/

/-- A field `x` of four records of width 3. -/
def loopTable : RecordTable := fun name =>
  ([("a.x", "a"), ("b.x", "b"), ("c.x", "c"), ("d.x", "d")].lookup name).map fun record => ⟨true, some record, some 3⟩

/-- The edges `b r` and `c d` of the loop are selected. -/
def loopTree : SelectedSpanningForest :=
  ⟨⟨["a", "b", "c", "d", "r"], [0, 1, 2, 2, 1], [false, false, false, false, false]⟩, [("a", "a"), ("a", "b")]⟩

theorem equalityLinksOfSets_loop : ∃ after results, (OverconstrainedEquationForest.new loopTree).equalityLinksOfSets
      [(loopTable, ["a.x", "c.x", "p", "d.x", "b.x"]), (loopTable, ["a.x", "b.x"])] = some (after, results) ∧
    List.Forall₂ (fun set result => ∀ linked, result = .ok linked → set.2 ≠ [] →
        LinksSet set.1 set.2 loopTree.broken linked)
      [(loopTable, ["a.x", "c.x", "p", "d.x", "b.x"]), (loopTable, ["a.x", "b.x"])] results ∧
    (results.flatMap emittedPairs).Nodup :=
  equalityLinksOfSets_spanning (show constructRequiredEdgeForest loopData loopEdges = pure loopRequired from rfl)
    (show SelectedSpanningForest.new loopRequired [("b", "r"), ("c", "d")] [("a", "a"), ("a", "b")] = some loopTree
      from rfl) _

end Rumoca.Flatten
