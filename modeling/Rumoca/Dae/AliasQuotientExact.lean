import Mathlib.Algebra.Ring.Int.Defs
import Mathlib.Data.List.Pairwise
import Mathlib.Tactic.Tauto
import Rumoca.Dae.AliasQuotient
import Rumoca.Lib.Forest
/-!
# The alias quotient keeps the solutions

The classes are the trees of the edges, and a class that is not marked has no
cycle. Within a class every member reached equals the representative up to the
sign of its path, which the edges found on the way state. So the definitions
and the edges left over have the same valuations as all edges together.
-/

namespace Rumoca.Dae

open Rumoca.Lib

/-! ## Classes -/

section
variable {n : Nat} {es : List (Nat × Nat)} {parents : List Nat}

theorem find_spec (h : Represents n es parents) {x : Nat} (hx : x < n) :
    ∃ parents', find parents x = some (parents', rootOf n (parentAt parents) x) ∧ Represents n es parents' ∧
      ∀ z, rootOf n (parentAt parents') z = rootOf n (parentAt parents) z := by
  obtain ⟨⟨parents', root⟩, hfind, hrep, hroots, hroot⟩ := loop_spec findTurn
    (fun s : List Nat × Nat => Represents n es s.1 ∧ s.2 < n ∧
      (∀ z, rootOf n (parentAt s.1) z = rootOf n (parentAt parents) z) ∧
      rootOf n (parentAt parents) s.2 = rootOf n (parentAt parents) x)
    (fun s => s.2)
    (fun r => Represents n es r.1 ∧ (∀ z, rootOf n (parentAt r.1) z = rootOf n (parentAt parents) z) ∧
      r.2 = rootOf n (parentAt parents) x)
    (fun ⟨ps, y⟩ ⟨hrep, hy, hroots, hroot⟩ => by
      simp only at hrep hy hroots hroot
      have hget : ps[y]? = some (parentAt ps y) := getElem?_parentAt (by rw [hrep.length]; exact hy)
      by_cases hp : parentAt ps y = y
      · refine .inr ⟨(ps, y), ?_, hrep, hroots, ?_⟩
        · simp only [findTurn, hget, Option.bind_eq_bind, Option.bind_some, if_pos hp]
          rfl
        · rw [← hroot, ← hroots, Forest.rootOf_of_root hp]
      · -- the grandparent lies above the node, in the same tree
        have hpn := hrep.forest.inside y hy
        have hgrand := hrep.forest.inside _ hpn
        have hup := hrep.forest.up y hp
        have hle : descent n (parentAt ps y) ≤ descent n (parentAt ps (parentAt ps y)) := by
          by_cases hg : parentAt ps (parentAt ps y) = parentAt ps y
          · rw [hg]
          · exact (hrep.forest.up _ hg).le
        have hsame : rootOf n (parentAt ps) (parentAt ps (parentAt ps y)) = rootOf n (parentAt ps) y := by
          rw [hrep.forest.rootOf_parent, hrep.forest.rootOf_parent]
        have hset := hrep.forest.repoint hy hgrand (hup.trans_le hle) hsame
        rw [← parentAt_set (by rw [hrep.length]; exact hy)] at hset
        have hget' : ps[parentAt ps y]? = some (parentAt ps (parentAt ps y)) :=
          getElem?_parentAt (by rw [hrep.length]; exact hpn)
        refine .inl ⟨(ps.set y (parentAt ps (parentAt ps y)), parentAt ps (parentAt ps y)), ?_,
          ⟨⟨hset.1, by simp [hrep.length], fun i hi j hj => ?_⟩, hgrand, fun z => ?_, ?_⟩, ?_⟩
        · simp only [findTurn, hget, hget', Option.bind_eq_bind, Option.bind_some, if_neg hp]
          rfl
        · rw [hset.2, hset.2]
          exact hrep.joined i hi j hj
        · rw [hset.2, hroots]
        · rw [← hroots, hsame, hroots, hroot]
        · have := hup.trans_le hle
          rw [descent, descent] at this
          simp only
          omega)
    (parents.length + 1) (parents, x) ⟨h, hx, fun _ => rfl, rfl⟩ (by rw [h.length]; simpa using hx.trans (Nat.lt_succ_self n))
  exact ⟨parents', by rw [← hroot]; exact hfind, hrep, hroots⟩

end

section
variable {n : Nat} {edges : List AliasEdge}

/-- An edge joins its ends, and a class that no root marks has no cycle. -/
theorem foldlM_unions (hends : ∀ e ∈ edges, e.first.var < n ∧ e.second.var < n) :
    ∃ s, edges.foldlM Unions.turn ⟨List.range n, []⟩ = some s ∧ Represents n (edges.map (·.ends)) s.parent ∧
      (∀ c ∈ s.cyclic, c < n) ∧
      AcyclicOn (fun x => ∀ c ∈ s.cyclic, ¬ Joined (edges.map (·.ends)) x c) (edges.map (·.ends)) := by
  refine foldlM_spec (fun (pre : List AliasEdge) (s : Unions) => Represents n (pre.map (·.ends)) s.parent ∧ (∀ c ∈ s.cyclic, c < n) ∧
      AcyclicOn (fun x => ∀ c ∈ s.cyclic, ¬ Joined (pre.map (·.ends)) x c) (pre.map (·.ends)))
    (fun pre e post s hl ⟨hrep, hlt, hacyclic⟩ => ?_)
    ⟨represents_range n, by simp, fun i e h => by simp at h⟩
  obtain ⟨ha, hb⟩ := hends e (by rw [hl]; simp)
  obtain ⟨p₁, hfind₁, hrep₁, hroots₁⟩ := find_spec hrep ha
  obtain ⟨p₂, hfind₂, hrep₂, hroots₂⟩ := find_spec hrep₁ hb
  rw [hroots₁] at hfind₂
  have hroots : ∀ z, rootOf n (parentAt p₂) z = rootOf n (parentAt s.parent) z := fun z =>
    (hroots₂ z).trans (hroots₁ z)
  have hjoined := hrep.joined _ ha _ hb
  have happ : (pre ++ [e]).map (·.ends) = pre.map (·.ends) ++ [(e.first.var, e.second.var)] := by
    rw [List.map_append, List.map_singleton]
    rfl
  -- the edges before stay without a cycle where no root of the new state marks one
  have hkeep : ∀ cyclic : List Nat, (∀ c ∈ s.cyclic, c ∈ cyclic) →
      ((∀ c ∈ cyclic, ¬ Joined ((pre ++ [e]).map (·.ends)) e.first.var c) →
        ¬ Joined (pre.map (·.ends)) e.first.var e.second.var) →
      AcyclicOn (fun x => ∀ c ∈ cyclic, ¬ Joined ((pre ++ [e]).map (·.ends)) x c) ((pre ++ [e]).map (·.ends)) := by
    intro cyclic hsub hab
    have hmono : ∀ {x y}, Joined (pre.map (·.ends)) x y → Joined ((pre ++ [e]).map (·.ends)) x y := fun h =>
      h.mono fun f hf => by rw [happ]; exact List.mem_append_left _ hf
    have hold : AcyclicOn (fun x => ∀ c ∈ cyclic, ¬ Joined ((pre ++ [e]).map (·.ends)) x c) (pre.map (·.ends)) :=
      fun i f hf hP => hacyclic i f hf fun c hc hj => hP c (hsub c hc) (hmono hj)
    have happend := hold.append (a := e.first.var) (b := e.second.var) (fun f hf => by
      rw [← happ] at hf
      have hj : Joined ((pre ++ [e]).map (·.ends)) f.1 f.2 := .of_mem hf
      exact forall₂_congr fun c _ => not_congr ⟨fun h => hj.symm.trans h, fun h => hj.trans h⟩) hab
    rw [← happ] at happend
    exact happend
  by_cases he : rootOf n (parentAt s.parent) e.first.var = rootOf n (parentAt s.parent) e.second.var
  · refine ⟨⟨p₂, s.cyclic ++ [rootOf n (parentAt s.parent) e.first.var]⟩, ?_, ?_, fun c hc => ?_, hkeep _ ?_ ?_⟩
    · simp only [Unions.turn, hfind₁, hfind₂, Option.bind_eq_bind, Option.bind_some, if_pos he]
      rfl
    · refine ⟨hrep₂.forest, hrep₂.length, fun i hi j hj => ?_⟩
      rw [happ, joined_append_of_joined (hjoined.1 he)]
      exact hrep₂.joined i hi j hj
    · rcases List.mem_append.1 hc with hc | hc
      · exact hlt c hc
      · rw [List.mem_singleton.1 hc]
        exact hrep.forest.rootOf_lt ha
    · exact fun c hc => List.mem_append_left _ hc
    · intro hP _
      refine hP _ (List.mem_append_right _ (List.mem_singleton_self _)) ?_
      rw [happ, joined_append_of_joined (hjoined.1 he)]
      exact (hrep.joined _ ha _ (hrep.forest.rootOf_lt ha)).1 (hrep.forest.rootOf_rootOf _).symm
  · refine ⟨⟨p₂.set (max (rootOf n (parentAt s.parent) e.first.var) (rootOf n (parentAt s.parent) e.second.var))
      (min (rootOf n (parentAt s.parent) e.first.var) (rootOf n (parentAt s.parent) e.second.var)), s.cyclic⟩,
      ?_, ?_, hlt, hkeep _ (fun c hc => hc) fun _ hj => he (hjoined.2 hj)⟩
    · simp only [Unions.turn, hfind₁, hfind₂, Option.bind_eq_bind, Option.bind_some, if_neg he]
      rfl
    · rw [happ]
      refine hrep₂.link ha hb ?_ (by omega)
      rw [hroots, hroots]
      omega

theorem foldlM_cyclic {es : List (Nat × Nat)} {parents cyclic : List Nat} (h : Represents n es parents)
    (hlt : ∀ c ∈ cyclic, c < n) :
    ∃ s, cyclic.foldlM cyclicTurn ⟨parents, []⟩ = some s ∧ Represents n es s.parent ∧
      (∀ z, rootOf n (parentAt s.parent) z = rootOf n (parentAt parents) z) ∧
      s.cyclic = cyclic.map (rootOf n (parentAt parents)) := by
  refine foldlM_spec (fun (pre : List Nat) (s : Unions) => Represents n es s.parent ∧
      (∀ z, rootOf n (parentAt s.parent) z = rootOf n (parentAt parents) z) ∧
      s.cyclic = pre.map (rootOf n (parentAt parents)))
    (fun pre c post s hl ⟨hrep, hroots, hcyclic⟩ => ?_) ⟨h, fun _ => rfl, rfl⟩
  obtain ⟨p, hfind, hrep', hroots'⟩ := find_spec hrep (hlt c (by rw [hl]; simp))
  rw [hroots] at hfind
  refine ⟨⟨p, s.cyclic ++ [rootOf n (parentAt parents) c]⟩, ?_, hrep', fun z => (hroots' z).trans (hroots z), ?_⟩
  · simp only [cyclicTurn, hfind, Option.bind_eq_bind, Option.bind_some]
    rfl
  · rw [hcyclic, List.map_append, List.map_singleton]

theorem foldlM_groups {es : List (Nat × Nat)} {parents : List Nat} (h : Represents n es parents)
    (hends : ∀ e ∈ edges, e.first.var < n) :
    ∃ s, edges.foldlM Groups.turn ⟨parents, []⟩ = some s ∧ (s.edges.map (·.1)).Nodup ∧
      ∀ key, (s.edges.lookup key).getD [] =
        edges.filter (fun e => rootOf n (parentAt parents) e.first.var = key) ∧
        (s.edges.lookup key = some [] → False) := by
  obtain ⟨s, hs, -, -, hnodup, hlookup⟩ := foldlM_spec (l := edges) (f := Groups.turn) (s := ⟨parents, []⟩)
    (fun pre s => Represents n es s.parent ∧
      (∀ z, rootOf n (parentAt s.parent) z = rootOf n (parentAt parents) z) ∧ (s.edges.map (·.1)).Nodup ∧
      ∀ key, (s.edges.lookup key).getD [] =
        pre.filter (fun e => rootOf n (parentAt parents) e.first.var = key) ∧ (s.edges.lookup key = some [] → False))
    (fun pre e post s hl ⟨hrep, hroots, hnodup, hlookup⟩ => by
      obtain ⟨p, hfind, hrep', hroots'⟩ := find_spec hrep (hends e (by rw [hl]; simp))
      rw [hroots] at hfind
      refine ⟨⟨p, pushEntry s.edges (rootOf n (parentAt parents) e.first.var) e⟩, ?_, hrep',
        fun z => (hroots' z).trans (hroots z), keys_pushEntry_nodup hnodup _ _, fun key => ?_⟩
      · simp only [Groups.turn, hfind, Option.bind_eq_bind, Option.bind_some]
        rfl
      · rw [lookup_pushEntry, List.filter_append]
        by_cases hkey : key = rootOf n (parentAt parents) e.first.var
        · subst hkey
          rw [if_pos rfl, Option.getD_some, (hlookup _).1]
          simp
        · rw [if_neg hkey, (hlookup key).1]
          have hne : ¬ rootOf n (parentAt parents) e.first.var = key := fun he => hkey he.symm
          exact ⟨by simp [hne], (hlookup key).2⟩)
    ⟨h, fun _ => rfl, List.nodup_nil, fun key => ⟨rfl, fun he => nomatch he⟩⟩
  exact ⟨s, hs, hnodup, hlookup⟩

/-- The classes: the edges by the root of their tree, marked where the edges have a cycle. -/
structure AreClasses (n : Nat) (edges : List AliasEdge) (root : Nat → Nat) (cyclic : List Nat)
    (groups : List (Nat × List AliasEdge)) : Prop where
  joined : ∀ i < n, ∀ j < n, (root i = root j ↔ Joined (edges.map (·.ends)) i j)
  nodup : (groups.map (·.1)).Nodup
  filter : ∀ g ∈ groups, g.2 = edges.filter (fun e => root e.first.var = g.1) ∧ g.2 ≠ []
  acyclic : AcyclicOn (fun x => root x ∉ cyclic) (edges.map (·.ends))

theorem classes_spec (hends : ∀ e ∈ edges, e.first.var < n ∧ e.second.var < n) :
    ∃ root cyclic groups, classes n edges = some (groups.map (classOf cyclic)) ∧
      AreClasses n edges root cyclic groups := by
  obtain ⟨unions, hunions, hrep, hlt, hacyclic⟩ := foldlM_unions hends
  obtain ⟨marked, hmarked, hrep', hroots, hcyclic⟩ := foldlM_cyclic hrep hlt
  obtain ⟨groups, hgroups, hnodup, hlookup⟩ := foldlM_groups hrep' fun e he => (hends e he).1
  refine ⟨rootOf n (parentAt unions.parent), marked.cyclic, groups.edges.insertionSort (·.1 ≤ ·.1), ?_,
    hrep.joined, ?_, fun g hg => ?_, ?_⟩
  · simp only [classes, hunions, hmarked, hgroups, Option.bind_eq_bind, Option.bind_some]
    rfl
  · exact ((List.perm_insertionSort _ _).map _).nodup_iff.2 hnodup
  · rw [List.mem_insertionSort] at hg
    have hget := lookup_of_mem_keys hnodup hg
    have hspec := hlookup g.1
    rw [hget, Option.getD_some] at hspec
    refine ⟨?_, fun hnil => hspec.2 (by rw [hnil])⟩
    rw [hspec.1]
    simp only [hroots]
  · intro i e hi hP
    have hmem := List.mem_of_getElem? hi
    obtain ⟨f, hf, hfe⟩ := List.mem_map.1 hmem
    refine hacyclic i e hi fun c hc hj => hP ?_
    rw [hcyclic, (hrep.joined _ (by rw [← hfe]; exact (hends f hf).1) c (hlt c hc)).2 hj]
    exact List.mem_map_of_mem hc

end

/-! ## Signs -/

section
variable {V : Type*} [InvolutiveNeg V]

theorem signed_signed (a b : Bool) (x : V) : signed a (signed b x) = signed (a ^^ b) x := by
  cases a <;> cases b <;> simp [signed]

def AliasEdge.Joins (e : AliasEdge) (p x : Nat) : Prop :=
  (e.first.var = p ∧ e.second.var = x) ∨ (e.first.var = x ∧ e.second.var = p)

theorem AliasEdge.Joins.holds_iff {e : AliasEdge} {p x : Nat} (h : e.Joins p x) (v : Valuation V) :
    e.Holds v ↔ v x = signed e.negated (v p) := by
  have hswap : ∀ y z : V, y = signed e.negated z ↔ z = signed e.negated y := by
    intro y z
    constructor
    · rintro rfl
      rw [signed_signed, Bool.xor_self]
      rfl
    · rintro rfl
      rw [signed_signed, Bool.xor_self]
      rfl
  rcases h with ⟨rfl, rfl⟩ | ⟨rfl, rfl⟩
  · exact hswap _ _
  · exact Iff.rfl

end

/-! ## Orienting a class -/

/-- A member found from another over an edge, with its sign. -/
structure Discovery where
  parent : Nat
  node : Nat
  edge : AliasEdge
  negated : Bool

def SignOf (r : Nat) (order : List Discovery) (x : Nat) (b : Bool) : Prop :=
  (x = r ∧ b = false) ∨ ∃ d ∈ order, d.node = x ∧ d.negated = b

/-- Members found one after another, each new, over an edge from one found before. -/
inductive Found (r : Nat) (es : List AliasEdge) : List Discovery → Prop where
  | start : Found r es []
  | next {order : List Discovery} {d : Discovery} {b : Bool} : Found r es order → SignOf r order d.parent b →
      d.node ≠ r → d.node ∉ order.map (·.node) → d.edge ∈ es → d.edge.Joins d.parent d.node →
      d.negated = (b ^^ d.edge.negated) → Found r es (order ++ [d])

section
variable {r : Nat} {es : List AliasEdge} {order : List Discovery}

theorem SignOf.append {x : Nat} {b : Bool} (h : SignOf r order x b) (d : Discovery) : SignOf r (order ++ [d]) x b :=
  h.imp id fun ⟨f, hf, hx⟩ => ⟨f, List.mem_append_left _ hf, hx⟩

theorem signOf_append {d : Discovery} {x : Nat} {b : Bool} :
    SignOf r (order ++ [d]) x b ↔ SignOf r order x b ∨ (d.node = x ∧ d.negated = b) := by
  simp only [SignOf, List.mem_append, List.mem_singleton]
  constructor
  · rintro (h | ⟨f, hf | rfl, hx⟩)
    · exact .inl (.inl h)
    · exact .inl (.inr ⟨f, hf, hx⟩)
    · exact .inr hx
  · rintro ((h | ⟨f, hf, hx⟩) | hx)
    · exact .inl h
    · exact .inr ⟨f, .inl hf, hx⟩
    · exact .inr ⟨d, .inr rfl, hx⟩

theorem SignOf.mem {x : Nat} {b : Bool} (h : SignOf r order x b) : x = r ∨ x ∈ order.map (·.node) := by
  rcases h with ⟨rfl, -⟩ | ⟨d, hd, rfl, -⟩
  · exact .inl rfl
  · exact .inr (List.mem_map_of_mem hd)

theorem Found.nodup (h : Found r es order) : (order.map (·.node)).Nodup ∧ r ∉ order.map (·.node) := by
  induction h with
  | start => exact ⟨List.nodup_nil, by simp⟩
  | next _ _ hr hfresh _ _ _ ih =>
    rw [List.map_append, List.map_singleton]
    refine ⟨List.nodup_append.2 ⟨ih.1, List.nodup_singleton _, fun a ha b hb he => hfresh ?_⟩, ?_⟩
    · rw [← List.mem_singleton.1 hb, ← he]
      exact ha
    · rw [List.mem_append, List.mem_singleton, not_or]
      exact ⟨ih.2, Ne.symm hr⟩

theorem Found.ends (h : Found r es order) : ∀ d ∈ order, d.edge ∈ es ∧ d.edge.Joins d.parent d.node ∧
    (d.parent = r ∨ d.parent ∈ order.map (·.node)) := by
  induction h with
  | start => exact fun d hd => nomatch hd
  | @next order d b _ hsign _ _ he hjoins _ ih =>
    intro f hf
    rw [List.map_append, List.mem_append]
    rcases List.mem_append.1 hf with hf | hf
    · obtain ⟨hfe, hfj, hfp⟩ := ih f hf
      exact ⟨hfe, hfj, hfp.imp id .inl⟩
    · obtain rfl := List.mem_singleton.1 hf
      exact ⟨he, hjoins, hsign.mem.imp id .inl⟩

/-- No owner's edge finds two members: the member it finds is new, and its other end is not. -/
theorem Found.owners_nodup (h : Found r es order) (howners : ∀ e ∈ es, ∀ f ∈ es, e.owner = f.owner → e = f) :
    (order.map (·.edge.owner)).Nodup := by
  induction h with
  | start => exact List.nodup_nil
  | @next order d b hfound hsign hr hfresh he hjoins _ ih =>
    rw [List.map_append, List.map_singleton]
    refine List.nodup_append.2 ⟨ih, List.nodup_singleton _, fun o ho o' ho' heq => ?_⟩
    rw [List.mem_singleton.1 ho'] at heq
    obtain ⟨f, hf, rfl⟩ := List.mem_map.1 ho
    obtain ⟨hfe, hfj, hfp⟩ := hfound.ends f hf
    have hedge := howners _ hfe _ he heq
    have hnode : d.node = f.parent ∨ d.node = f.node := by
      rw [hedge] at hfj
      rcases hjoins with ⟨h₁, h₂⟩ | ⟨h₁, h₂⟩ <;> rcases hfj with ⟨k₁, k₂⟩ | ⟨k₁, k₂⟩
      · exact .inr (h₂.symm.trans k₂)
      · exact .inl (h₂.symm.trans k₂)
      · exact .inl (h₁.symm.trans k₁)
      · exact .inr (h₁.symm.trans k₁)
    rcases hnode with hn | hn
    · rcases hfp with hp | hp
      · exact hr (hn.trans hp)
      · exact hfresh (hn ▸ hp)
    · exact hfresh (hn ▸ List.mem_map_of_mem hf)

section
variable {V : Type*} [InvolutiveNeg V] {v : Valuation V}

theorem Found.sound (h : Found r es order) (hv : ∀ e ∈ es, e.Holds v) {x : Nat} {b : Bool} (hx : SignOf r order x b) :
    v x = signed b (v r) := by
  induction h generalizing x b with
  | start =>
    rcases hx with ⟨rfl, rfl⟩ | ⟨d, hd, -⟩
    · rfl
    · cases hd
  | @next order d b' _ hsign _ _ he hjoins hneg ih =>
    rcases signOf_append.1 hx with hx | ⟨rfl, rfl⟩
    · exact ih hx
    · rw [(hjoins.holds_iff v).1 (hv _ he), ih hsign, signed_signed, hneg, Bool.xor_comm]

/-- The definitions of the members, and the edges of those that have none, give every sign back. -/
theorem Found.back (h : Found r es order) (hv : ∀ d ∈ order, v d.node = signed d.negated (v r) ∨ d.edge.Holds v)
    {x : Nat} {b : Bool} (hx : SignOf r order x b) : v x = signed b (v r) := by
  induction h generalizing x b with
  | start =>
    rcases hx with ⟨rfl, rfl⟩ | ⟨d, hd, -⟩
    · rfl
    · cases hd
  | @next order d b' _ hsign _ _ he hjoins hneg ih =>
    have hrest := fun {x b} => ih (fun f hf => hv f (List.mem_append_left _ hf)) (x := x) (b := b)
    rcases signOf_append.1 hx with hx | ⟨rfl, rfl⟩
    · exact hrest hx
    · rcases hv d (by simp) with hd | hd
      · exact hd
      · rw [(hjoins.holds_iff v).1 hd, hrest hsign, signed_signed, hneg, Bool.xor_comm]

theorem Found.edges_hold (h : Found r es order) (hv : ∀ x b, SignOf r order x b → v x = signed b (v r)) :
    ∀ d ∈ order, d.edge.Holds v := by
  induction h with
  | start => exact fun d hd => nomatch hd
  | @next order d b _ hsign _ _ he hjoins hneg ih =>
    intro f hf
    rcases List.mem_append.1 hf with hf | hf
    · exact ih (fun x b hx => hv x b (hx.append d)) f hf
    · obtain rfl := List.mem_singleton.1 hf
      rw [hjoins.holds_iff, hv _ _ (signOf_append.2 (.inr ⟨rfl, rfl⟩)), hv _ _ (hsign.append f), signed_signed, hneg,
        Bool.xor_comm]

end

/-! ## The search -/

variable {facts : Nat → MemberFacts}

/-- What the plan gets for the members found: states keep their edge. -/
def assignmentsOf (facts : Nat → MemberFacts) (r : Nat) (order : List Discovery) : List Assignment :=
  (order.filter fun d => !(facts d.node).state).map fun d => assignmentOf r d.node d.negated d.edge

/-- The state of the search after the members of `order`. -/
structure Reached (facts : Nat → MemberFacts) (r : Nat) (es : List AliasEdge) (order : List Discovery)
    (s : Orientation) : Prop where
  found : Found r es order
  negated : ∀ x b, s.negated x = some b ↔ SignOf r order x b
  pending : ∀ x ∈ s.pending, ∃ b, s.negated x = some b
  assignments : s.assignments = assignmentsOf facts r order

theorem mem_adjacency {node next : Nat} {edge : AliasEdge} (h : (next, edge) ∈ adjacency es node) :
    edge ∈ es ∧ edge.Joins node next := by
  rw [adjacency, List.mem_flatMap] at h
  obtain ⟨e, he, hmem⟩ := h
  rcases List.mem_append.1 hmem with hmem | hmem
  · by_cases hf : e.first.var = node
    · rw [if_pos hf, List.mem_singleton, Prod.mk.injEq] at hmem
      obtain ⟨rfl, rfl⟩ := hmem
      exact ⟨he, .inl ⟨hf, rfl⟩⟩
    · simp [hf] at hmem
  · by_cases hf : e.second.var = node
    · rw [if_pos hf, List.mem_singleton, Prod.mk.injEq] at hmem
      obtain ⟨rfl, rfl⟩ := hmem
      exact ⟨he, .inr ⟨rfl, hf⟩⟩
    · simp [hf] at hmem

theorem reach_spec {s : Orientation} (h : Reached facts r es order s) {node next : Nat} {edge : AliasEdge}
    {parity : Bool} (hparity : s.negated node = some parity) (hedge : edge ∈ es) (hjoins : edge.Joins node next) :
    ∃ found : List Discovery, Reached facts r es (order ++ found) (s.reach facts r parity (next, edge)) ∧
      (s.reach facts r parity (next, edge)).pending = s.pending ++ found.map (·.node) ∧
      (s.reach facts r parity (next, edge)).negated node = some parity := by
  cases hseen : s.negated next with
  | some b =>
    have hs : s.reach facts r parity (next, edge) = s := by
      simp [Orientation.reach, hseen]
    rw [hs]
    exact ⟨[], by rwa [List.append_nil], by simp, hparity⟩
  | none =>
    have hnew : ∀ b, ¬ SignOf r order next b := fun b hb => by
      rw [(h.negated next b).2 hb] at hseen
      cases hseen
    have hne : node ≠ next := by
      rintro rfl
      rw [hparity] at hseen
      cases hseen
    refine ⟨[⟨node, next, edge, parity ^^ edge.negated⟩], ?_, ?_, ?_⟩
    · refine ⟨.next h.found ((h.negated node parity).1 hparity) (fun he => hnew false (.inl ⟨he, rfl⟩)) ?_ hedge hjoins rfl,
        fun x b => ?_, fun x hx => ?_, ?_⟩
      · intro hmem
        obtain ⟨d, hd, hdn⟩ := List.mem_map.1 hmem
        exact hnew d.negated (.inr ⟨d, hd, hdn, rfl⟩)
      · rw [signOf_append]
        simp only [Orientation.reach, hseen, Option.isSome_none, Bool.false_eq_true, if_false]
        by_cases hx : x = next
        · subst hx
          simp [hnew]
        · rw [Function.update_of_ne hx, h.negated]
          simp [Ne.symm hx]
      · simp only [Orientation.reach, hseen, Option.isSome_none, Bool.false_eq_true, if_false] at hx ⊢
        by_cases hxn : x = next
        · exact ⟨_, by rw [hxn, Function.update_self]⟩
        · rw [Function.update_of_ne hxn]
          rcases List.mem_append.1 hx with hx | hx
          · exact h.pending x hx
          · exact absurd (List.mem_singleton.1 hx) hxn
      · simp only [Orientation.reach, hseen, Option.isSome_none, Bool.false_eq_true, if_false, h.assignments,
          assignmentsOf]
        cases hstate : (facts next).state with
        | true => simp [hstate]
        | false => simp [hstate]
    · simp [Orientation.reach, hseen]
    · simp only [Orientation.reach, hseen, Option.isSome_none, Bool.false_eq_true, if_false]
      rw [Function.update_of_ne hne, hparity]

theorem turn_spec {s : Orientation} (h : Reached facts r es order s) {node : Nat} {rest : List Nat}
    (hpending : s.pending = node :: rest) :
    ∃ found s', s.turn facts es r = some (.next s') ∧ Reached facts r es (order ++ found) s' ∧
      s'.pending = rest ++ found.map (·.node) := by
  obtain ⟨parity, hparity⟩ := h.pending node (by rw [hpending]; exact List.mem_cons_self)
  have hstart : Reached facts r es order { s with pending := rest } :=
    ⟨h.found, h.negated, fun x hx => h.pending x (by rw [hpending]; exact List.mem_cons_of_mem _ hx), h.assignments⟩
  obtain ⟨found, hreached, hpend, -⟩ := foldl_inv (l := adjacency es node)
    (f := Orientation.reach facts r parity) (s := { s with pending := rest })
    (fun _ t => ∃ found : List Discovery, Reached facts r es (order ++ found) t ∧
      t.pending = rest ++ found.map (·.node) ∧ t.negated node = some parity)
    (fun pre nbr post t hl ⟨found, hreached, hpend, hparity⟩ => by
      have hmem : (nbr.1, nbr.2) ∈ adjacency es node := by rw [hl]; simp
      obtain ⟨hedge, hjoins⟩ := mem_adjacency hmem
      obtain ⟨more, hreached', hpend', hparity'⟩ := reach_spec hreached hparity hedge hjoins
      refine ⟨found ++ more, by rw [← List.append_assoc]; exact hreached', ?_, hparity'⟩
      rw [hpend', hpend, List.map_append, List.append_assoc])
    ⟨[], by rwa [List.append_nil], by simp, hparity⟩
  refine ⟨found, _, ?_, hreached, hpend⟩
  simp only [Orientation.turn, hpending, hparity]

theorem quotientClass_spec (facts : Nat → MemberFacts) {class_ : AliasClass} (r : Nat)
    (hends : ∀ e ∈ class_.edges, e.first.var ∈ class_.members ∧ e.second.var ∈ class_.members) :
    ∃ order, Found r class_.edges order ∧ quotientClass facts class_ r = some (assignmentsOf facts r order) := by
  -- the members found are distinct members of the class
  have hbound : ∀ order, Found r class_.edges order → order.length ≤ class_.members.length := by
    intro order h
    have hsub : ∀ x ∈ order.map (·.node), x ∈ class_.members := by
      intro x hx
      obtain ⟨d, hd, rfl⟩ := List.mem_map.1 hx
      obtain ⟨he, hj, -⟩ := h.ends d hd
      rcases hj with ⟨-, h₂⟩ | ⟨h₁, -⟩
      · exact h₂ ▸ (hends _ he).2
      · exact h₁ ▸ (hends _ he).1
    have := (h.nodup.1.subperm hsub).length_le
    rwa [List.length_map] at this
  obtain ⟨as, has, order, hfound, rfl⟩ := loop_ghost (Orientation.turn facts class_.edges r)
    (fun order s => Reached facts r class_.edges order s)
    (fun order s => class_.members.length - order.length + s.pending.length)
    (fun as => ∃ order, Found r class_.edges order ∧ as = assignmentsOf facts r order)
    (fun order s hs => by
      cases hpending : s.pending with
      | nil =>
        refine .inr ⟨s.assignments, ?_, order, hs.found, hs.assignments⟩
        simp only [Orientation.turn, hpending]
      | cons node rest =>
        obtain ⟨found, s', hturn, hreached, hpend⟩ := turn_spec hs hpending
        refine .inl ⟨order ++ found, s', hturn, hreached, ?_⟩
        have hle := hbound _ hreached.found
        rw [List.length_append] at hle
        simp only [hpend, List.length_append, List.length_map, List.length_cons]
        omega)
    (class_.members.length + 2) [] ⟨Function.update (fun _ => none) r (some false), [r], []⟩
    ⟨.start, fun x b => by
        by_cases hx : x = r
        · subst hx
          simp [SignOf, eq_comm]
        · simp [SignOf, hx],
      fun x hx => ⟨false, by simp [List.mem_singleton.1 hx]⟩, rfl⟩ (by simp)
  exact ⟨order, hfound, has⟩

end

/-! ## Representatives -/

section
variable {facts : Nat → MemberFacts} {class_ : AliasClass}

/-- The plan gets nothing from a class, or what a search from its representative found. -/
def ClassAssigned (facts : Nat → MemberFacts) (class_ : AliasClass) (as : List Assignment) : Prop :=
  as = [] ∨ ∃ r order, class_.cyclic = false ∧ (∀ m ∈ class_.members, (facts m).anchored → m = r) ∧
    Found r class_.edges order ∧ as = assignmentsOf facts r order

theorem representative_spec (facts : Nat → MemberFacts) (hne : class_.members ≠ []) :
    (∃ reason, representative facts class_ = .error reason) ∨
      ∃ r, representative facts class_ = .ok (some r) ∧ class_.cyclic = false ∧
        ∀ m ∈ class_.members, (facts m).anchored → m = r := by
  cases hc : class_.cyclic with
  | true => exact .inl ⟨.cycle, by simp [representative, hc]⟩
  | false =>
    match hf : class_.members.filter fun member => (facts member).anchored with
    | [] =>
      obtain ⟨m, rest, hm⟩ := List.exists_cons_of_ne_nil hne
      have hsome : ∃ r, (class_.members.find? fun member => (facts member).state && !(facts member).avoided).or
          ((class_.members.find? fun member => (facts member).state).or class_.members.head?) = some r := by
        refine Option.isSome_iff_exists.1 ?_
        simp [hm]
      obtain ⟨r, hr⟩ := hsome
      refine .inr ⟨r, ?_, rfl, fun m hm ha => ?_⟩
      · simp [representative, hc, hf, hr]
      · exact absurd ha (List.filter_eq_nil_iff.1 hf m hm)
    | [anchor] =>
      by_cases hs : (!(facts anchor).state && class_.members.any fun member => (facts member).state) = true
      · refine .inl ⟨.anchorIsNotState, ?_⟩
        simp only [representative, hc, Bool.false_eq_true, if_false, hf, if_pos hs]
      · refine .inr ⟨anchor, ?_, rfl, fun m hm ha => ?_⟩
        · simp only [representative, hc, Bool.false_eq_true, if_false, hf, if_neg hs]
        · have : m ∈ class_.members.filter fun member => (facts member).anchored := List.mem_filter.2 ⟨hm, ha⟩
          rw [hf] at this
          exact List.mem_singleton.1 this
    | a :: b :: rest => exact .inl ⟨.severalAnchors, by simp [representative, hc, hf]⟩

theorem classAssignments_spec (facts : Nat → MemberFacts) (hne : class_.members ≠ [])
    (hends : ∀ e ∈ class_.edges, e.first.var ∈ class_.members ∧ e.second.var ∈ class_.members) :
    ∃ as, classAssignments facts class_ = some as ∧ ClassAssigned facts class_ as := by
  rcases representative_spec facts hne with ⟨reason, hr⟩ | ⟨r, hr, hcyclic, hanchor⟩
  · exact ⟨[], by simp only [classAssignments, hr], .inl rfl⟩
  · obtain ⟨order, hfound, has⟩ := quotientClass_spec facts r hends
    exact ⟨_, by simp only [classAssignments, hr, has], .inr ⟨r, order, hcyclic, hanchor, hfound, rfl⟩⟩

end

/-! ## Plans -/

theorem mem_ordinalSet (l : List Nat) (x : Nat) : x ∈ ordinalSet l ↔ x ∈ l := by
  rw [ordinalSet, List.mem_insertionSort, List.mem_dedup]

theorem mem_classOf {cyclic : List Nat} {g : Nat × List AliasEdge} (x : Nat) :
    x ∈ (classOf cyclic g).members ↔ ∃ e ∈ g.2, x = e.first.var ∨ x = e.second.var := by
  rw [classOf, mem_ordinalSet, List.mem_flatMap]
  simp

/-- The plan holds the assignments. -/
structure AliasPlan.Records (plan : AliasPlan) (assignments : List Assignment) : Prop where
  substitutions : ∀ (x : Nat) s, plan.substitutions[x]? = some (some s) ↔
    ∃ a ∈ assignments, a.member = x ∧ a.substitution = s
  definitions : ∀ o d, plan.definitions.lookup o = some d ↔ ∃ a ∈ assignments, a.owner = o ∧ a.definition = d

theorem foldl_assign (assignments : List Assignment) (hmembers : (assignments.map (·.member)).Nodup)
    (howners : (assignments.map (·.owner)).Nodup) {count : Nat} (hlt : ∀ a ∈ assignments, a.member < count) :
    (assignments.foldl AliasPlan.assign ⟨List.replicate count none, []⟩).Records assignments := by
  have key := foldl_inv (l := assignments) (f := AliasPlan.assign) (s := ⟨List.replicate count none, []⟩)
    (fun pre plan => plan.substitutions.length = count ∧
      (∀ (x : Nat) s, plan.substitutions[x]? = some (some s) ↔ ∃ a ∈ pre, a.member = x ∧ a.substitution = s) ∧
      ∀ o d, plan.definitions.lookup o = some d ↔ ∃ a ∈ pre, a.owner = o ∧ a.definition = d)
    (fun pre a post plan hl ⟨hlen, hsub, hdef⟩ => by
      have hnewm : a.member ∉ pre.map (·.member) := by
        rw [hl, List.map_append, List.map_cons, List.nodup_append] at hmembers
        exact fun hm => hmembers.2.2 _ hm _ (by simp) rfl
      have hnewo : a.owner ∉ pre.map (·.owner) := by
        rw [hl, List.map_append, List.map_cons, List.nodup_append] at howners
        exact fun hm => howners.2.2 _ hm _ (by simp) rfl
      refine ⟨by simp [AliasPlan.assign, hlen], fun x s => ?_, fun o d => ?_⟩
      · simp only [AliasPlan.assign, List.mem_append, List.mem_singleton]
        by_cases hx : a.member = x
        · subst hx
          rw [List.getElem?_set_self (by rw [hlen]; exact hlt a (by rw [hl]; simp)), Option.some.injEq,
            Option.some.injEq]
          constructor
          · exact fun hs => ⟨a, .inr rfl, rfl, hs⟩
          · rintro ⟨b, hb | rfl, hbm, hbs⟩
            · exact absurd (hbm ▸ List.mem_map_of_mem hb) hnewm
            · exact hbs
        · rw [List.getElem?_set_ne hx, hsub]
          constructor
          · rintro ⟨b, hb, h⟩
            exact ⟨b, .inl hb, h⟩
          · rintro ⟨b, hb | rfl, hbm, hbs⟩
            · exact ⟨b, hb, hbm, hbs⟩
            · exact absurd hbm hx
      · simp only [AliasPlan.assign, lookup_insertEntry, List.mem_append, List.mem_singleton]
        by_cases ho : o = a.owner
        · subst ho
          rw [if_pos rfl, Option.some.injEq]
          constructor
          · exact fun hd => ⟨a, .inr rfl, rfl, hd⟩
          · rintro ⟨b, hb | rfl, hbo, hbd⟩
            · exact absurd (hbo ▸ List.mem_map_of_mem hb) hnewo
            · exact hbd
        · rw [if_neg ho, hdef]
          constructor
          · rintro ⟨b, hb, h⟩
            exact ⟨b, .inl hb, h⟩
          · rintro ⟨b, hb | rfl, hbo, hbd⟩
            · exact ⟨b, hb, hbo, hbd⟩
            · exact absurd hbo.symm ho)
    ⟨List.length_replicate, fun x s => by simp [List.getElem?_replicate], fun o d => by simp⟩
  exact ⟨key.2.1, key.2.2⟩

section
variable {V : Type*} [InvolutiveNeg V] {plan : AliasPlan} {assignments : List Assignment} {v : Valuation V}

def Assignment.Holds (a : Assignment) (v : Valuation V) : Prop :=
  v a.member = signed a.substitution.negated (v a.substitution.representative)

theorem AliasPlan.Records.read_member (h : plan.Records assignments) {a : Assignment} (ha : a ∈ assignments) :
    plan.read v a.member = signed a.substitution.negated (v a.substitution.representative) := by
  rw [AliasPlan.read, (h.substitutions a.member a.substitution).2 ⟨a, ha, rfl, rfl⟩]

theorem AliasPlan.Records.read_eq (h : plan.Records assignments) (hv : ∀ a ∈ assignments, a.Holds v) :
    plan.read v = v := by
  funext x
  unfold AliasPlan.read
  split
  · next s hs =>
    obtain ⟨a, ha, rfl, rfl⟩ := (h.substitutions x s).1 hs
    exact (hv a ha).symm
  · rfl

theorem AliasPlan.Records.solves_rebuild (h : plan.Records assignments)
    (hmember : ∀ a ∈ assignments, a.definition.member = a.member) {owners : List (Owner V)}
    (howner : ∀ a ∈ assignments, a.owner < owners.length) :
    Solves (plan.rebuild owners) v ↔ (∀ a ∈ assignments, a.Holds v) ∧
      ∀ (i : Nat) owner, owners[i]? = some owner → (∀ a ∈ assignments, a.owner ≠ i) → owner v := by
  have hnone : ∀ i, (∀ a ∈ assignments, a.owner ≠ i) → plan.definitions.lookup i = none := by
    intro i hi
    cases hd : plan.definitions.lookup i with
    | none => rfl
    | some d =>
      obtain ⟨a, ha, hai, -⟩ := (h.definitions i d).1 hd
      exact absurd hai (hi a ha)
  have hget : ∀ (i : Nat) owner, owners[i]? = some owner → (plan.rebuild owners)[i]? = some (plan.rebuildOwner i owner) := by
    intro i owner hi
    rw [AliasPlan.rebuild, List.getElem?_mapIdx, hi]
    rfl
  constructor
  · intro hsolves
    have hv : ∀ a ∈ assignments, a.Holds v := by
      intro a ha
      have hdef := hsolves _ (List.mem_of_getElem? (hget a.owner _ (List.getElem?_eq_getElem (howner a ha))))
      rw [AliasPlan.rebuildOwner, (h.definitions a.owner a.definition).2 ⟨a, ha, rfl, rfl⟩] at hdef
      have hdef : v a.definition.member = plan.read v a.definition.member := hdef
      rwa [hmember a ha, h.read_member ha] at hdef
    refine ⟨hv, fun i owner hi hno => ?_⟩
    have hkept := hsolves _ (List.mem_of_getElem? (hget i owner hi))
    rw [AliasPlan.rebuildOwner, hnone i hno] at hkept
    have hkept : owner (plan.read v) := hkept
    rwa [h.read_eq hv] at hkept
  · rintro ⟨hv, hkept⟩ o ho
    obtain ⟨i, hi, rfl⟩ := List.mem_mapIdx.1 ho
    cases hd : plan.definitions.lookup i with
    | some d =>
      obtain ⟨a, ha, -, rfl⟩ := (h.definitions i d).1 hd
      rw [AliasPlan.rebuildOwner, hd]
      show v a.definition.member = plan.read v a.definition.member
      rw [hmember a ha, h.read_member ha]
      exact hv a ha
    | none =>
      rw [AliasPlan.rebuildOwner, hd]
      show owners[i] (plan.read v)
      rw [h.read_eq hv]
      refine hkept i _ (List.getElem?_eq_getElem hi) fun a ha hai => ?_
      rw [← hai, (h.definitions a.owner a.definition).2 ⟨a, ha, rfl, rfl⟩] at hd
      cases hd

end

section
variable {members : List MemberFacts} {edges : List AliasEdge} {root : Nat → Nat} {cyclic : List Nat}
  {groups : List (Nat × List AliasEdge)} {as : Nat × List AliasEdge → List Assignment}

theorem planAssignments_spec (members : List MemberFacts) (edges : List AliasEdge) (scope : QuotientScope)
    (hends : ∀ e ∈ admittedEdges members edges scope, e.first.var < members.length ∧ e.second.var < members.length) :
    ∃ root cyclic groups as, AreClasses members.length (admittedEdges members edges scope) root cyclic groups ∧
      planAssignments members edges scope = some (groups.flatMap as) ∧
      ∀ g ∈ groups, ClassAssigned (factsOf members) (classOf cyclic g) (as g) := by
  obtain ⟨root, cyclic, groups, hclasses, hare⟩ := classes_spec hends
  have hspec : ∀ g ∈ groups, ∃ as, classAssignments (factsOf members) (classOf cyclic g) = some as ∧
      ClassAssigned (factsOf members) (classOf cyclic g) as := by
    intro g hg
    refine classAssignments_spec _ ?_ fun e he => ⟨(mem_classOf _).2 ⟨e, he, .inl rfl⟩, (mem_classOf _).2 ⟨e, he, .inr rfl⟩⟩
    obtain ⟨e, rest, he⟩ := List.exists_cons_of_ne_nil (hare.filter g hg).2
    exact List.ne_nil_of_mem ((mem_classOf e.first.var).2 ⟨e, by simp [he], .inl rfl⟩)
  refine ⟨root, cyclic, groups, fun g => (classAssignments (factsOf members) (classOf cyclic g)).getD [], hare, ?_,
    fun g hg => ?_⟩
  · have hmap := mapM_eq_some_map (l := groups.map (classOf cyclic)) (f := classAssignments (factsOf members))
      (g := fun c => (classAssignments (factsOf members) c).getD []) (fun c hc => by
        obtain ⟨g, hg, rfl⟩ := List.mem_map.1 hc
        obtain ⟨as, has, -⟩ := hspec g hg
        rw [has, Option.getD_some])
    simp only [planAssignments, hclasses, hmap, Option.bind_eq_bind, Option.bind_some, List.map_map]
    rfl
  · obtain ⟨as, has, hassigned⟩ := hspec g hg
    simp only [has, Option.getD_some]
    exact hassigned

theorem ClassAssigned.discovery {facts : Nat → MemberFacts} {class_ : AliasClass} {as : List Assignment}
    (h : ClassAssigned facts class_ as) {a : Assignment} (ha : a ∈ as) :
    ∃ r order d, class_.cyclic = false ∧ (∀ m ∈ class_.members, (facts m).anchored → m = r) ∧
      Found r class_.edges order ∧ as = assignmentsOf facts r order ∧ d ∈ order ∧ (facts d.node).state = false ∧
      a = assignmentOf r d.node d.negated d.edge := by
  rcases h with rfl | ⟨r, order, hcyclic, hanchor, hfound, rfl⟩
  · cases ha
  · obtain ⟨d, hd, rfl⟩ := List.mem_map.1 ha
    obtain ⟨hd, hstate⟩ := List.mem_filter.1 hd
    exact ⟨r, order, d, hcyclic, hanchor, hfound, rfl, hd, by simpa using hstate, rfl⟩

theorem AreClasses.edge (hare : AreClasses members.length edges root cyclic groups)
    (hends : ∀ e ∈ edges, e.first.var < members.length ∧ e.second.var < members.length)
    {g : Nat × List AliasEdge} (hg : g ∈ groups) {e : AliasEdge} (he : e ∈ g.2) {p x : Nat} (hj : e.Joins p x) :
    e ∈ edges ∧ root e.first.var = g.1 ∧ root x = g.1 ∧ x < members.length := by
  rw [(hare.filter g hg).1, List.mem_filter] at he
  have hroot : root e.first.var = g.1 := by simpa using he.2
  have hjoin : root e.first.var = root e.second.var :=
    (hare.joined _ (hends e he.1).1 _ (hends e he.1).2).2 (.of_mem (List.mem_map_of_mem (f := AliasEdge.ends) he.1))
  rcases hj with ⟨-, rfl⟩ | ⟨rfl, -⟩
  · exact ⟨he.1, hroot, hjoin.symm.trans hroot, (hends e he.1).2⟩
  · exact ⟨he.1, hroot, hroot, (hends e he.1).1⟩

theorem AreClasses.nodup_assignments (hare : AreClasses members.length edges root cyclic groups)
    (hends : ∀ e ∈ edges, e.first.var < members.length ∧ e.second.var < members.length)
    (howners : (edges.map (·.owner)).Nodup)
    (has : ∀ g ∈ groups, ClassAssigned (factsOf members) (classOf cyclic g) (as g)) :
    ((groups.flatMap as).map (·.owner)).Nodup ∧ ((groups.flatMap as).map (·.member)).Nodup := by
  have hinj : ∀ e ∈ edges, ∀ f ∈ edges, e.owner = f.owner → e = f := fun e he f hf h =>
    List.inj_on_of_nodup_map howners he hf h
  have hpair : groups.Pairwise fun g h => g.1 ≠ h.1 := List.pairwise_map.1 hare.nodup
  -- an assignment of a class names its tree by its member and by its owner
  have htree : ∀ g ∈ groups, ∀ a ∈ as g, root a.member = g.1 ∧
      ∃ e ∈ edges, e.owner = a.owner ∧ root e.first.var = g.1 := by
    intro g hg a ha
    obtain ⟨r, order, d, -, -, hfound, -, hd, -, rfl⟩ := (has g hg).discovery ha
    obtain ⟨he, hj, -⟩ := hfound.ends d hd
    obtain ⟨hmem, hroot, hnode, -⟩ := hare.edge hends hg he hj
    exact ⟨hnode, d.edge, hmem, rfl, hroot⟩
  have hsub : ∀ g ∈ groups, ∀ e ∈ g.2, e ∈ edges := fun g hg e he => (hare.edge hends hg he (.inl ⟨rfl, rfl⟩)).1
  rw [List.map_flatMap, List.map_flatMap, List.nodup_flatMap, List.nodup_flatMap]
  refine ⟨⟨fun g hg => ?_, ?_⟩, fun g hg => ?_, ?_⟩
  · rcases has g hg with h | ⟨r, order, -, -, hfound, h⟩
    · rw [h]
      exact List.nodup_nil
    · rw [h, assignmentsOf, List.map_map]
      exact (hfound.owners_nodup fun e he f hf => hinj e (hsub g hg e he) f (hsub g hg f hf)).sublist
        (List.filter_sublist.map _)
  · refine hpair.imp_of_mem fun {g h} hg hh hne o ho ho' => hne ?_
    obtain ⟨a, ha, rfl⟩ := List.mem_map.1 ho
    obtain ⟨b, hb, hab⟩ := List.mem_map.1 ho'
    obtain ⟨e, he, heo, her⟩ := (htree g hg a ha).2
    obtain ⟨f, hf, hfo, hfr⟩ := (htree h hh b hb).2
    have hef : e = f := hinj e he f hf (by rw [heo, hfo, ← hab])
    rw [← her, ← hfr, hef]
  · rcases has g hg with h | ⟨r, order, -, -, hfound, h⟩
    · rw [h]
      exact List.nodup_nil
    · rw [h, assignmentsOf, List.map_map]
      exact hfound.nodup.1.sublist (List.filter_sublist.map _)
  · refine hpair.imp_of_mem fun {g h} hg hh hne m hm hm' => hne ?_
    obtain ⟨a, ha, rfl⟩ := List.mem_map.1 hm
    obtain ⟨b, hb, hab⟩ := List.mem_map.1 hm'
    rw [← (htree g hg a ha).1, ← (htree h hh b hb).1, ← hab]

end

/-! ## The quotient -/

/-- A cycle of edges in the class of `x`. -/
def OnCycle (edges : List AliasEdge) (x : Nat) : Prop :=
  ∃ i e, edges[i]? = some e ∧ Joined (edges.map (·.ends)) x e.first.var ∧
    Joined ((edges.map (·.ends)).eraseIdx i) e.first.var e.second.var

/-- Two anchored members in the class of `x`. -/
def DoublyAnchored (members : List MemberFacts) (edges : List AliasEdge) (x : Nat) : Prop :=
  ∃ a b, a ≠ b ∧ (factsOf members a).anchored ∧ (factsOf members b).anchored ∧
    Joined (edges.map (·.ends)) x a ∧ Joined (edges.map (·.ends)) x b

/-- The plan substitutes no member of the class of `x` and defines none by its edges. -/
def AliasPlan.Untouched (plan : AliasPlan) (edges : List AliasEdge) (x : Nat) : Prop :=
  (∀ y, Joined (edges.map (·.ends)) x y → ∀ s, plan.substitutions[y]? ≠ some (some s)) ∧
    ∀ e ∈ edges, Joined (edges.map (·.ends)) x e.first.var → plan.definitions.lookup e.owner = none

theorem end_of_joined {edges : List AliasEdge} {a b : Nat} (h : Joined (edges.map (·.ends)) a b) (hne : a ≠ b) :
    ∃ e ∈ edges, b = e.first.var ∨ b = e.second.var := by
  by_contra hno
  refine hne (eqvGen_isolated (fun c d hcd => ?_) h)
  obtain ⟨e, he, hed⟩ := List.mem_map.1 hcd
  rw [AliasEdge.ends, Prod.mk.injEq] at hed
  exact ⟨fun hc => hno ⟨e, he, .inl (hc.symm.trans hed.1.symm)⟩, fun hd => hno ⟨e, he, .inr (hd.symm.trans hed.2.symm)⟩⟩

section
variable {members : List MemberFacts} {edges : List AliasEdge} {root : Nat → Nat} {cyclic : List Nat}
  {groups : List (Nat × List AliasEdge)} {as : Nat × List AliasEdge → List Assignment}

theorem AreClasses.refused (hare : AreClasses members.length edges root cyclic groups)
    (hends : ∀ e ∈ edges, e.first.var < members.length ∧ e.second.var < members.length)
    (has : ∀ g ∈ groups, ClassAssigned (factsOf members) (classOf cyclic g) (as g)) {g : Nat × List AliasEdge}
    (hg : g ∈ groups) {x : Nat} (hx : x < members.length) (hroot : root x = g.1)
    (hrefuse : OnCycle edges x ∨ DoublyAnchored members edges x) : as g = [] := by
  rcases has g hg with hnil | ⟨r, order, hcyclic, hanchor, -, -⟩
  · exact hnil
  · exfalso
    have hnot : g.1 ∉ cyclic := by simpa [classOf] using hcyclic
    rcases hrefuse with ⟨i, e, hi, hxe, hcycle⟩ | ⟨a, b, hab, ha, hb, hxa, hxb⟩
    · have hpair : (edges.map (·.ends))[i]? = some (e.first.var, e.second.var) := by
        rw [List.getElem?_map, hi]
        rfl
      refine hare.acyclic i _ hpair ?_ hcycle
      show root e.first.var ∉ cyclic
      rw [← (hare.joined _ hx _ (hends e (List.mem_of_getElem? hi)).1).2 hxe, hroot]
      exact hnot
    · -- both anchored members are ends of edges of the class
      have hmember : ∀ {c d}, c ≠ d → Joined (edges.map (·.ends)) x c → Joined (edges.map (·.ends)) x d →
          c ∈ (classOf cyclic g).members := by
        intro c d hne hc hd
        obtain ⟨e, he, hce⟩ := end_of_joined (hd.symm.trans hc) hne.symm
        have hj : e.Joins e.second.var e.first.var := .inr ⟨rfl, rfl⟩
        refine (mem_classOf c).2 ⟨e, ?_, hce⟩
        rw [(hare.filter g hg).1, List.mem_filter]
        refine ⟨he, decide_eq_true ?_⟩
        have hce' : Joined (edges.map (·.ends)) c e.first.var := by
          have hend : Joined (edges.map (·.ends)) e.first.var e.second.var :=
            .of_mem (List.mem_map_of_mem (f := AliasEdge.ends) he)
          rcases hce with rfl | rfl
          · exact .refl _ _
          · exact hend.symm
        rw [← hroot, (hare.joined _ hx _ (hends e he).1).2 (hc.trans hce')]
      exact hab ((hanchor a (hmember hab hxa hxb) ha).trans (hanchor b (hmember hab.symm hxb hxa) hb).symm)

theorem AreClasses.substitution_values (hare : AreClasses members.length edges root cyclic groups)
    (has : ∀ g ∈ groups, ClassAssigned (factsOf members) (classOf cyclic g) (as g))
    {V : Type*} [InvolutiveNeg V] {v : Valuation V} (hv : ∀ e ∈ edges, e.Holds v) :
    ∀ a ∈ groups.flatMap as, a.Holds v := by
  intro a ha
  obtain ⟨g, hg, ha⟩ := List.mem_flatMap.1 ha
  obtain ⟨r, order, d, -, -, hfound, -, hd, -, rfl⟩ := (has g hg).discovery ha
  refine hfound.sound (fun e he => hv e ?_) (.inr ⟨d, hd, rfl, rfl⟩)
  have he : e ∈ g.2 := he
  rw [(hare.filter g hg).1] at he
  exact (List.mem_filter.1 he).1

theorem AreClasses.edge_holds (hare : AreClasses members.length edges root cyclic groups)
    (hends : ∀ e ∈ edges, e.first.var < members.length ∧ e.second.var < members.length)
    (howners : (edges.map (·.owner)).Nodup)
    (has : ∀ g ∈ groups, ClassAssigned (factsOf members) (classOf cyclic g) (as g))
    {V : Type*} [InvolutiveNeg V] {v : Valuation V}
    (hdef : ∀ a ∈ groups.flatMap as, a.Holds v)
    (hkept : ∀ e ∈ edges, (∀ a ∈ groups.flatMap as, a.owner ≠ e.owner) → e.Holds v) : ∀ e ∈ edges, e.Holds v := by
  intro e he
  by_cases hassigned : ∀ a ∈ groups.flatMap as, a.owner ≠ e.owner
  · exact hkept e he hassigned
  · push Not at hassigned
    obtain ⟨a, ha, hao⟩ := hassigned
    obtain ⟨g, hg, hag⟩ := List.mem_flatMap.1 ha
    obtain ⟨r, order, d, -, -, hfound, hasg, hd, -, rfl⟩ := (has g hg).discovery hag
    have hsub : ∀ f ∈ g.2, f ∈ edges := fun f hf => (hare.edge hends hg hf (.inl ⟨rfl, rfl⟩)).1
    have hinj : ∀ e ∈ edges, ∀ f ∈ edges, e.owner = f.owner → e = f := fun e he f hf h =>
      List.inj_on_of_nodup_map howners he hf h
    have hde : d.edge = e := hinj _ (hsub _ (hfound.ends d hd).1) e he hao
    -- along the order of the search: a state by its edge, another member by its definition
    have hsigns : ∀ x b, SignOf r order x b → v x = signed b (v r) := fun x b => hfound.back fun f hf => by
      cases hstate : (factsOf members f.node).state with
      | false =>
        refine .inl (hdef (assignmentOf r f.node f.negated f.edge) (List.mem_flatMap.2 ⟨g, hg, ?_⟩))
        rw [hasg]
        exact List.mem_map_of_mem (List.mem_filter.2 ⟨hf, by simp [hstate]⟩)
      | true =>
        have hfe := hsub _ (hfound.ends f hf).1
        refine .inr (hkept f.edge hfe fun b hb hbo => ?_)
        obtain ⟨h, hh, hbh⟩ := List.mem_flatMap.1 hb
        obtain ⟨r', order', d', -, -, hfound', hash, hd', hstate', rfl⟩ := (has h hh).discovery hbh
        have hd'e := (hfound'.ends d' hd').1
        have hedge : d'.edge = f.edge :=
          hinj _ (hare.edge hends hh hd'e (.inl ⟨rfl, rfl⟩)).1 _ hfe hbo
        have hsame : h = g := by
          refine List.inj_on_of_nodup_map hare.nodup hh hg ?_
          rw [← (hare.edge hends hh hd'e (.inl ⟨rfl, rfl⟩)).2.1, hedge]
          exact (hare.edge hends hg (hfound.ends f hf).1 (.inl ⟨rfl, rfl⟩)).2.1
        subst hsame
        -- one search uses an edge once
        rw [hasg] at hbh
        obtain ⟨d'', hd'', heq⟩ := List.mem_map.1 hbh
        obtain ⟨hd'', hstate''⟩ := List.mem_filter.1 hd''
        have hown : d''.edge.owner = f.edge.owner := (congrArg Assignment.owner heq).trans hbo
        have hff : d'' = f := List.inj_on_of_nodup_map
          (hfound.owners_nodup fun e he f hf => hinj e (hsub e he) f (hsub f hf)) hd'' hf hown
        rw [hff, hstate] at hstate''
        cases hstate''
    rw [← hde]
    exact hfound.edges_hold hsigns d hd

end

/-- The quotient of the edges of distinct owners: each owner and each member is assigned once, no state and no
anchored member is substituted, a class with a cycle or two anchors is untouched, and the rebuilt system has the
solutions of the original one. -/
theorem aliasQuotient_exact (members : List MemberFacts) (edges : List AliasEdge) (scope : QuotientScope)
    (hends : ∀ e ∈ edges, e.first.var < members.length ∧ e.second.var < members.length)
    (howners : (edges.map (·.owner)).Nodup) :
    ∃ assignments plan, planAssignments members edges scope = some assignments ∧
      derivePlan members edges scope = some plan ∧
      (assignments.map (·.owner)).Nodup ∧ (assignments.map (·.member)).Nodup ∧
      (∀ (x : Nat) s, plan.substitutions[x]? = some (some s) →
        (factsOf members x).state = false ∧ (factsOf members x).anchored = false) ∧
      (∀ x < members.length, (OnCycle (admittedEdges members edges scope) x ∨
          DoublyAnchored members (admittedEdges members edges scope) x) →
        plan.Untouched (admittedEdges members edges scope) x) ∧
      ∀ (V : Type*) [InvolutiveNeg V] (owners : List (Owner V)),
        (∀ e ∈ edges, ∃ owner, owners[e.owner]? = some owner ∧ ∀ v, owner v ↔ e.Holds v) →
        ∀ v, Solves owners v ↔ Solves (plan.rebuild owners) v := by
  have hsub : ∀ e ∈ admittedEdges members edges scope, e ∈ edges := by
    intro e he
    cases scope with
    | source => exact he
    | formalDerivatives => exact (List.mem_filter.1 he).1
  have howners' : ((admittedEdges members edges scope).map (·.owner)).Nodup := by
    cases scope with
    | source => exact howners
    | formalDerivatives => exact howners.sublist (List.filter_sublist.map _)
  have hends' := fun e he => hends e (hsub e he)
  obtain ⟨root, cyclic, groups, as, hare, hplan, has⟩ := planAssignments_spec members edges scope hends'
  obtain ⟨hownersNodup, hmembersNodup⟩ := hare.nodup_assignments hends' howners' has
  have hlt : ∀ a ∈ groups.flatMap as, a.member < members.length := by
    intro a ha
    obtain ⟨g, hg, ha⟩ := List.mem_flatMap.1 ha
    obtain ⟨r, order, d, -, -, hfound, -, hd, -, rfl⟩ := (has g hg).discovery ha
    exact (hare.edge hends' hg (hfound.ends d hd).1 (hfound.ends d hd).2.1).2.2.2
  have hrecords := foldl_assign (groups.flatMap as) hmembersNodup hownersNodup hlt
  refine ⟨groups.flatMap as, (groups.flatMap as).foldl AliasPlan.assign ⟨List.replicate members.length none, []⟩, hplan,
    ?_, hownersNodup, hmembersNodup, fun x s hx => ?_, fun x hx hrefuse => ⟨fun y hxy s hs => ?_, fun e he hxe => ?_⟩, ?_⟩
  · simp only [derivePlan, hplan, Option.bind_eq_bind, Option.bind_some]
    rfl
  · obtain ⟨a, ha, rfl, -⟩ := (hrecords.substitutions x s).1 hx
    obtain ⟨g, hg, ha⟩ := List.mem_flatMap.1 ha
    obtain ⟨r, order, d, -, hanchor, hfound, -, hd, hstate, rfl⟩ := (has g hg).discovery ha
    refine ⟨hstate, Bool.eq_false_iff.2 fun hanchored => ?_⟩
    obtain ⟨he, hj, -⟩ := hfound.ends d hd
    -- the anchored member is the representative, which is not found
    have hmem : d.node ∈ (classOf cyclic g).members :=
      (mem_classOf _).2 ⟨d.edge, he, by rcases hj with ⟨-, h⟩ | ⟨h, -⟩ <;> simp [h]⟩
    exact hfound.nodup.2 (hanchor _ hmem hanchored ▸ List.mem_map_of_mem hd)
  · obtain ⟨a, ha, rfl, -⟩ := (hrecords.substitutions y s).1 hs
    have hy := hlt a ha
    obtain ⟨g, hg, ha⟩ := List.mem_flatMap.1 ha
    obtain ⟨r, order, d, -, -, hfound, -, hd, -, rfl⟩ := (has g hg).discovery ha
    have hroot := (hare.edge hends' hg (hfound.ends d hd).1 (hfound.ends d hd).2.1).2.2.1
    have hnil := hare.refused hends' has hg hx (((hare.joined x hx d.node hy).2 hxy).trans hroot) hrefuse
    rw [hnil] at ha
    cases ha
  · cases hlookup : ((groups.flatMap as).foldl AliasPlan.assign ⟨List.replicate members.length none, []⟩).definitions.lookup
      e.owner with
    | none => rfl
    | some definition =>
      obtain ⟨a, ha, hao, -⟩ := (hrecords.definitions e.owner definition).1 hlookup
      obtain ⟨g, hg, ha⟩ := List.mem_flatMap.1 ha
      obtain ⟨r, order, d, -, -, hfound, -, hd, -, rfl⟩ := (has g hg).discovery ha
      obtain ⟨hde, hroot, -, -⟩ := hare.edge hends' hg (hfound.ends d hd).1 (hfound.ends d hd).2.1
      have hedge : d.edge = e := List.inj_on_of_nodup_map howners' hde he hao
      rw [hedge] at hroot
      have hnil := hare.refused hends' has hg hx
        (((hare.joined x hx _ (hends' e he).1).2 hxe).trans hroot) hrefuse
      rw [hnil] at ha
      cases ha
  · intro V _ owners hstates v
    have hstates' := fun e he => hstates e (hsub e he)
    -- an assignment comes from an edge, whose owner states it
    have hedge : ∀ a ∈ groups.flatMap as, a.definition.member = a.member ∧
        ∃ e ∈ admittedEdges members edges scope, e.owner = a.owner := by
      intro a ha
      obtain ⟨g, hg, ha⟩ := List.mem_flatMap.1 ha
      obtain ⟨r, order, d, -, -, hfound, -, hd, -, rfl⟩ := (has g hg).discovery ha
      exact ⟨rfl, d.edge, (hare.edge hends' hg (hfound.ends d hd).1 (hfound.ends d hd).2.1).1, rfl⟩
    rw [hrecords.solves_rebuild (fun a ha => (hedge a ha).1) fun a ha => by
      obtain ⟨e, he, heo⟩ := (hedge a ha).2
      obtain ⟨owner, hget, -⟩ := hstates' e he
      exact heo ▸ (List.getElem?_eq_some_iff.1 hget).1]
    constructor
    · intro hsolves
      have hedges : ∀ e ∈ admittedEdges members edges scope, e.Holds v := fun e he => by
        obtain ⟨owner, howner, hiff⟩ := hstates' e he
        exact (hiff v).1 (hsolves owner (List.mem_of_getElem? howner))
      exact ⟨hare.substitution_values has hedges, fun i owner hi _ => hsolves owner (List.mem_of_getElem? hi)⟩
    · rintro ⟨hv, hkept⟩ owner hmem
      have hedges := hare.edge_holds hends' howners' has hv fun e he hno => by
        obtain ⟨owner, hget, hiff⟩ := hstates' e he
        exact (hiff v).1 (hkept e.owner owner hget hno)
      obtain ⟨i, hi⟩ := List.mem_iff_getElem?.1 hmem
      by_cases hassigned : ∀ a ∈ groups.flatMap as, a.owner ≠ i
      · exact hkept i owner hi hassigned
      · push Not at hassigned
        obtain ⟨a, ha, rfl⟩ := hassigned
        obtain ⟨e, he, heo⟩ := (hedge a ha).2
        obtain ⟨owner', hget, hiff⟩ := hstates' e he
        obtain rfl : owner' = owner := Option.some.inj ((heo ▸ hget).symm.trans hi)
        exact (hiff v).2 (hedges e he)

/-! ## A chain behind a state -/

/-- A state, two algebraics behind it, and an algebraic apart. -/
def chainMembers : List MemberFacts :=
  [⟨true, true, false, false, false⟩, ⟨true, false, false, false, false⟩, ⟨true, false, false, false, false⟩,
    ⟨true, false, false, false, true⟩]

/-- `x = a` and `b = -a`. -/
def chainEdges : List AliasEdge :=
  [⟨0, none, 10, ⟨0, 5⟩, ⟨1, 6⟩, false⟩, ⟨2, none, 11, ⟨2, 7⟩, ⟨1, 8⟩, true⟩]

/-- The owners of the edges, and one that reads `b`. -/
def chainOwners : List (Owner Int) := [fun v => v 0 = v 1, fun v => v 3 = v 2 + v 0, fun v => v 2 = -v 1]

theorem aliasQuotient_chain :
    ∃ plan, derivePlan chainMembers chainEdges .source = some plan ∧
      ∀ v : Valuation Int, Solves chainOwners v ↔ Solves (plan.rebuild chainOwners) v := by
  obtain ⟨assignments, plan, -, hplan, -, -, -, -, hsolves⟩ := aliasQuotient_exact chainMembers chainEdges .source
    (by decide) (by decide)
  refine ⟨plan, hplan, hsolves Int chainOwners fun e he => ?_⟩
  rcases List.mem_cons.1 he with rfl | he
  · exact ⟨_, rfl, fun v => Iff.rfl⟩
  · rw [List.mem_singleton.1 he]
    exact ⟨_, rfl, fun v => Iff.rfl⟩

end Rumoca.Dae
