import Rumoca.Lib.Loop
import Rumoca.Lib.Entries
import Rumoca.Lib.Forest
/-!
# The union-find of connection sets

Variables by index, in order of insertion, with union by rank and path
compression. `Represents R s` says that `s` holds the variables of the pairs
`R` in the classes these generate; every operation keeps it, and ends.
-/

namespace Rumoca.Flatten

open Rumoca.Lib

abbrev VarName := String

structure UnionFind where
  varToIdx : List (VarName × Nat)
  parent : List Nat
  rank : List Nat
deriving Repr

namespace UnionFind

def new : UnionFind := ⟨[], [], []⟩

def getOrInsertIdx (s : UnionFind) (var : VarName) : UnionFind × Nat :=
  match s.varToIdx.lookup var with
  | some idx => (s, idx)
  | none => (⟨s.varToIdx ++ [(var, s.parent.length)], s.parent ++ [s.parent.length], s.rank ++ [0]⟩, s.parent.length)

/-- One turn of the first loop of `find_idx`. -/
def rootTurn (parent : List Nat) (root : Nat) : Option (Ctl Nat Nat) := do
  let next ← parent[root]?
  pure (if next ≠ root then .next next else .done root)

def findRoot (parent : List Nat) (idx : Nat) : Option Nat := loop (rootTurn parent) (parent.length + 1) idx

/-- One turn of the second loop of `find_idx`: path compression. -/
def compressTurn (root : Nat) (s : List Nat × Nat) : Option (Ctl (List Nat × Nat) (List Nat)) := do
  let next ← s.1[s.2]?
  pure (if next ≠ root then .next (s.1.set s.2 root, next) else .done s.1)

def compress (parent : List Nat) (root idx : Nat) : Option (List Nat) :=
  loop (compressTurn root) (parent.length + 1) (parent, idx)

def findIdx (s : UnionFind) (idx : Nat) : Option (UnionFind × Nat) := do
  let root ← findRoot s.parent idx
  let parent ← compress s.parent root idx
  pure ({ s with parent }, root)

def linkRoots (s : UnionFind) (rootA rootB : Nat) : Option UnionFind := do
  if rootA = rootB then return s
  let rankA ← s.rank[rootA]?
  let rankB ← s.rank[rootB]?
  if rankA < rankB then return { s with parent := s.parent.set rootA rootB }
  if rankA > rankB then return { s with parent := s.parent.set rootB rootA }
  return { s with parent := s.parent.set rootB rootA, rank := s.rank.set rootA (rankA + 1) }

def union (s : UnionFind) (a b : VarName) : Option UnionFind := do
  let (s, idxA) := s.getOrInsertIdx a
  let (s, idxB) := s.getOrInsertIdx b
  let (s, rootA) ← s.findIdx idxA
  let (s, rootB) ← s.findIdx idxB
  s.linkRoots rootA rootB

def ofPairs (pairs : List (VarName × VarName)) : Option UnionFind :=
  pairs.foldlM (fun s pair => s.union pair.1 pair.2) new

def find (s : UnionFind) (var : VarName) : Option (UnionFind × VarName) := do
  let (s, idx) := s.getOrInsertIdx var
  let (s, root) ← s.findIdx idx
  let entry ← s.varToIdx[root]?
  pure (s, entry.1)

/-- One turn of `get_sets`. -/
def getSetsStep (state : UnionFind × List (VarName × List VarName)) (idx : Nat) :
    Option (UnionFind × List (VarName × List VarName)) := do
  let (s, root) ← state.1.findIdx idx
  let var ← s.varToIdx[idx]?
  let rootVar ← s.varToIdx[root]?
  pure (s, pushEntry state.2 rootVar.1 var.1)

def getSets (s : UnionFind) : Option (UnionFind × List (VarName × List VarName)) :=
  (List.range s.parent.length).foldlM getSetsStep (s, [])

/-! ## Valid tables -/

def rankAt (ranks : List Nat) (x : Nat) : Nat := ranks.getD x 0

theorem getElem?_rankAt {ranks : List Nat} {x : Nat} (hx : x < ranks.length) : ranks[x]? = some (rankAt ranks x) := by
  rw [rankAt, List.getD_eq_getElem?_getD, List.getElem?_eq_getElem hx, Option.getD_some]

def names (s : UnionFind) : List VarName := s.varToIdx.map (·.1)

theorem names_congr {s s' : UnionFind} (h : s'.varToIdx = s.varToIdx) : s'.names = s.names := congrArg (List.map _) h

def root (s : UnionFind) (idx : Nat) : Nat := rootOf s.parent.length (parentAt s.parent) idx

structure Valid (s : UnionFind) : Prop where
  indices : s.varToIdx.map (·.2) = List.range s.parent.length
  nodup : s.names.Nodup
  ranks : s.rank.length = s.parent.length
  forest : Forest s.parent.length (rankAt s.rank) (parentAt s.parent)

theorem valid_new : Valid new :=
  ⟨rfl, List.nodup_nil, rfl, ⟨fun _ _ => rfl, fun _ h => absurd h (Nat.not_lt_zero _), fun _ h => absurd rfl h⟩⟩

section
variable {s : UnionFind}

theorem Valid.length (h : Valid s) : s.varToIdx.length = s.parent.length := by
  simpa using congrArg List.length h.indices

theorem Valid.getElem? (h : Valid s) {idx : Nat} {entry : VarName × Nat} (he : s.varToIdx[idx]? = some entry) :
    entry.2 = idx := by
  have hlt : idx < s.parent.length := by
    rw [← h.length]
    exact (List.getElem?_eq_some_iff.1 he).1
  have hi := congrArg (·[idx]?) h.indices
  simp only [List.getElem?_map, he, Option.map_some, List.getElem?_range hlt] at hi
  exact Option.some.inj hi

theorem Valid.lookup_iff (h : Valid s) {var : VarName} {idx : Nat} :
    s.varToIdx.lookup var = some idx ↔ s.names[idx]? = some var := by
  have key : ∀ (entries : List (VarName × Nat)) (start : Nat), entries.map (·.2) = List.range' start entries.length →
      (entries.map (·.1)).Nodup →
      (entries.lookup var = some (start + idx) ↔ (entries.map (·.1))[idx]? = some var) := by
    intro entries
    induction entries generalizing idx with
    | nil => intro start _ _; simp
    | cons entry entries ih =>
      intro start hidx hnodup
      simp only [List.map_cons, List.length_cons, List.range'_succ, List.cons.injEq] at hidx
      rw [List.map_cons, List.nodup_cons] at hnodup
      obtain ⟨name, i⟩ := entry
      obtain rfl : i = start := hidx.1
      rw [List.lookup_cons, List.map_cons]
      cases idx with
      | zero =>
        by_cases hv : var = name
        · simp [hv]
        · rw [beq_false_of_ne hv]
          simp only [Nat.add_zero, List.getElem?_cons_zero, Option.some.injEq]
          refine iff_of_false (fun hl => ?_) (fun he => hv he.symm)
          have hmem : ∃ e ∈ entries, e.2 = i := by
            obtain ⟨l₁, l₂, rfl, -⟩ := List.lookup_eq_some_iff.1 hl
            exact ⟨(var, i), by simp, rfl⟩
          obtain ⟨e, he, hei⟩ := hmem
          have : i ∈ List.range' (i + 1) entries.length := hidx.2 ▸ List.mem_map.2 ⟨e, he, hei⟩
          rw [List.mem_range'_1] at this
          omega
      | succ idx =>
        rw [List.getElem?_cons_succ, ← ih (i + 1) hidx.2 hnodup.2]
        by_cases hv : var = name
        · subst hv
          rw [beq_self_eq_true]
          refine iff_of_false (fun he => ?_) (fun hl => ?_)
          · have := Option.some.inj he
            omega
          · obtain ⟨l₁, l₂, rfl, -⟩ := List.lookup_eq_some_iff.1 hl
            exact hnodup.1 (by simp)
        · rw [beq_false_of_ne hv, show i + (idx + 1) = i + 1 + idx by omega]
  have hlen : s.varToIdx.map (·.2) = List.range' 0 s.varToIdx.length := by
    rw [h.indices, h.length, List.range_eq_range']
  have := key s.varToIdx 0 hlen h.nodup
  rwa [Nat.zero_add] at this

theorem Valid.names_length (h : Valid s) : s.names.length = s.parent.length := by
  rw [names, List.length_map, h.length]

theorem Valid.lt_of_name (h : Valid s) {idx : Nat} {var : VarName} (hv : s.names[idx]? = some var) :
    idx < s.parent.length := by
  rw [← h.names_length]
  exact (List.getElem?_eq_some_iff.1 hv).1

theorem Valid.root_lt (h : Valid s) {idx : Nat} (hidx : idx < s.parent.length) : s.root idx < s.parent.length :=
  h.forest.rootOf_lt hidx

theorem name_of_lt (h : Valid s) {idx : Nat} (hidx : idx < s.parent.length) : ∃ x, s.names[idx]? = some x :=
  ⟨_, List.getElem?_eq_getElem (h.names_length ▸ hidx)⟩

theorem index_unique (h : Valid s) {i j : Nat} {x : VarName} (hi : s.names[i]? = some x) (hj : s.names[j]? = some x) :
    i = j :=
  (List.getElem?_inj (h.names_length ▸ h.lt_of_name hi) h.nodup).1 (hi.trans hj.symm)

/-! ## Finding -/

/-- The first `k` nodes on the path from `idx` are no roots. -/
def Unrooted (parent : Nat → Nat) (idx k : Nat) : Prop := ∀ i < k, parent (parent^[i] idx) ≠ parent^[i] idx

theorem Unrooted.succ {parent : Nat → Nat} {idx k : Nat} (h : Unrooted parent idx k)
    (hk : parent (parent^[k] idx) ≠ parent^[k] idx) : Unrooted parent idx (k + 1) := by
  intro i hi
  rcases Nat.lt_succ_iff_lt_or_eq.1 hi with hi | rfl
  · exact h i hi
  · exact hk

theorem findRoot_spec (h : Valid s) {idx : Nat} (hidx : idx < s.parent.length) :
    findRoot s.parent idx = some (s.root idx) := by
  have hstep : ∀ k node, node = (parentAt s.parent)^[k] idx ∧ Unrooted (parentAt s.parent) idx k →
      (∃ k' node', rootTurn s.parent node = some (.next node') ∧
        (node' = (parentAt s.parent)^[k'] idx ∧ Unrooted (parentAt s.parent) idx k') ∧
        s.parent.length - k' < s.parent.length - k) ∨
      ∃ r, rootTurn s.parent node = some (.done r) ∧ r = s.root idx := by
    rintro k node ⟨rfl, hpath⟩
    have hlt := h.forest.iterate_lt k hidx
    have hk : k < s.parent.length := h.forest.path_lt hidx hpath
    simp only [rootTurn, getElem?_parentAt hlt, Option.bind_eq_bind, Option.bind_some]
    by_cases hroot : parentAt s.parent ((parentAt s.parent)^[k] idx) = (parentAt s.parent)^[k] idx
    · refine .inr ⟨_, by rw [if_neg (not_not.2 hroot)]; rfl, ?_⟩
      rw [UnionFind.root, ← h.forest.rootOf_iterate k idx, Forest.rootOf_of_root hroot]
    · exact .inl ⟨k + 1, _, by rw [if_pos hroot]; rfl, ⟨(Function.iterate_succ_apply' _ _ _).symm, hpath.succ hroot⟩,
        by omega⟩
  obtain ⟨r, hr, rfl⟩ := loop_ghost (rootTurn s.parent) _ _ _ hstep (s.parent.length + 1) 0 idx
    ⟨rfl, fun i hi => absurd hi (Nat.not_lt_zero i)⟩ (by omega)
  exact hr

/-- A parent list with the roots of the table. -/
structure SameRoots (s : UnionFind) (parent : List Nat) : Prop where
  length : parent.length = s.parent.length
  forest : Forest s.parent.length (rankAt s.rank) (parentAt parent)
  roots : ∀ z, rootOf s.parent.length (parentAt parent) z = s.root z

/-- Compression stands at step `k`; nodes of the current rank and above have their first parents. -/
structure Compressing (s : UnionFind) (idx k : Nat) (state : List Nat × Nat) : Prop where
  node : state.2 = (parentAt s.parent)^[k] idx
  path : Unrooted (parentAt s.parent) idx k
  roots : SameRoots s state.1
  agree : ∀ z, rankAt s.rank state.2 ≤ rankAt s.rank z → parentAt state.1 z = parentAt s.parent z

theorem compressTurn_spec (h : Valid s) {idx : Nat} (hidx : idx < s.parent.length) (k : Nat) (state : List Nat × Nat)
    (hs : Compressing s idx k state) :
    (∃ k' state', compressTurn (s.root idx) state = some (.next state') ∧ Compressing s idx k' state' ∧
      s.parent.length - k' < s.parent.length - k) ∨
    ∃ parent, compressTurn (s.root idx) state = some (.done parent) ∧ SameRoots s parent := by
  obtain ⟨parent, node⟩ := state
  obtain ⟨rfl, hpath, ⟨hlength, hforest, hroots⟩, hagree⟩ := hs
  simp only at hlength hforest hroots hagree
  have hlt := h.forest.iterate_lt k hidx
  have hk : k < s.parent.length := h.forest.path_lt hidx hpath
  have hnode : s.root ((parentAt s.parent)^[k] idx) = s.root idx := h.forest.rootOf_iterate k idx
  simp only [compressTurn, getElem?_parentAt (hlength ▸ hlt), hagree _ le_rfl, Option.bind_eq_bind, Option.bind_some]
  by_cases hnext : parentAt s.parent ((parentAt s.parent)^[k] idx) = s.root idx
  · exact .inr ⟨parent, by rw [if_neg (not_not.2 hnext)]; rfl, hlength, hforest, hroots⟩
  have hmove : parentAt s.parent ((parentAt s.parent)^[k] idx) ≠ (parentAt s.parent)^[k] idx := by
    intro he
    rw [UnionFind.root, Forest.rootOf_of_root he] at hnode
    exact hnext (he.trans hnode)
  have hup := h.forest.up _ hmove
  have htop : rankAt s.rank ((parentAt s.parent)^[k] idx) < rankAt s.rank (s.root idx) := by
    have hle := h.forest.height_le_rootOf (parentAt s.parent ((parentAt s.parent)^[k] idx))
    rw [h.forest.rootOf_parent, show rootOf _ _ _ = s.root idx from hnode] at hle
    exact hup.trans_le hle
  have hsame : rootOf s.parent.length (parentAt parent) (s.root idx) =
      rootOf s.parent.length (parentAt parent) ((parentAt s.parent)^[k] idx) := by
    rw [hroots, hroots, hnode]
    exact h.forest.rootOf_rootOf idx
  obtain ⟨hforest', hroots'⟩ := hforest.repoint hlt (h.root_lt hidx) htop hsame
  refine .inl ⟨k + 1, _, by rw [if_pos hnext]; rfl, ⟨?_, hpath.succ hmove,
    ⟨by rw [List.length_set]; exact hlength, ?_, fun z => ?_⟩, fun z hz => ?_⟩, by omega⟩
  · exact (Function.iterate_succ_apply' (parentAt s.parent) k idx).symm
  · rw [parentAt_set (hlength ▸ hlt)]
    exact hforest'
  · rw [parentAt_set (hlength ▸ hlt), hroots', hroots]
  · have hne : z ≠ (parentAt s.parent)^[k] idx := by
      rintro rfl
      exact absurd (hup.trans_le hz) (lt_irrefl _)
    rw [parentAt_set (hlength ▸ hlt), Function.update_of_ne hne]
    exact hagree z (hup.le.trans hz)

theorem compress_spec (h : Valid s) {idx : Nat} (hidx : idx < s.parent.length) :
    ∃ parent, compress s.parent (s.root idx) idx = some parent ∧ SameRoots s parent := by
  refine loop_ghost _ (Compressing s idx) _ _ (compressTurn_spec h hidx) (s.parent.length + 1) 0 (s.parent, idx) ?_
    (by omega)
  exact ⟨rfl, fun i hi => absurd hi (Nat.not_lt_zero i), ⟨rfl, h.forest, fun _ => rfl⟩, fun _ _ => rfl⟩

theorem findIdx_spec (h : Valid s) {idx : Nat} (hidx : idx < s.parent.length) :
    ∃ s', s.findIdx idx = some (s', s.root idx) ∧ Valid s' ∧ s'.varToIdx = s.varToIdx ∧
      s'.parent.length = s.parent.length ∧ ∀ z, s'.root z = s.root z := by
  obtain ⟨parent, hparent, hlength, hforest, hroots⟩ := compress_spec h hidx
  refine ⟨{ s with parent := parent }, ?_, ⟨?_, h.nodup, ?_, ?_⟩, rfl, hlength, fun z => ?_⟩
  · simp only [findIdx, findRoot_spec h hidx, Option.bind_eq_bind, Option.bind_some, hparent]
    rfl
  · rw [hlength]
    exact h.indices
  · rw [hlength]
    exact h.ranks
  · rw [hlength]
    exact hforest
  · rw [UnionFind.root, hlength]
    exact hroots z

/-! ## Tables that hold a relation -/

/-- The pairs of `R` and the pair of `a` and `b`. -/
def joined (R : VarName → VarName → Prop) (a b : VarName) (x y : VarName) : Prop := R x y ∨ (x = a ∧ y = b)

/-- The table has every variable of a pair, and its classes are the ones the pairs generate. -/
structure Holds (R : VarName → VarName → Prop) (s : UnionFind) : Prop extends Valid s where
  mem : ∀ x y, R x y → x ∈ s.names ∧ y ∈ s.names
  same : ∀ i j x y, s.names[i]? = some x → s.names[j]? = some y →
    (s.root i = s.root j ↔ Relation.EqvGen R x y)

variable {R : VarName → VarName → Prop}

theorem holds_new : Holds (fun _ _ => False) new :=
  ⟨valid_new, fun _ _ h => h.elim, fun _ _ _ _ h => nomatch h⟩

/-- An index for a variable: the table then has the variable there, and keeps the others. -/
theorem getOrInsertIdx_spec (h : Holds R s) (var : VarName) :
    Holds R (s.getOrInsertIdx var).1 ∧ (s.getOrInsertIdx var).1.names[(s.getOrInsertIdx var).2]? = some var ∧
      (∀ x, x ∈ (s.getOrInsertIdx var).1.names ↔ x ∈ s.names ∨ x = var) ∧
      ∀ (i : Nat) x, s.names[i]? = some x → (s.getOrInsertIdx var).1.names[i]? = some x := by
  unfold getOrInsertIdx
  cases hl : s.varToIdx.lookup var with
  | some idx =>
    have hv := h.lookup_iff.1 hl
    refine ⟨h, hv, fun x => ⟨.inl, ?_⟩, fun _ _ => id⟩
    rintro (hx | rfl)
    · exact hx
    · exact List.mem_of_getElem? hv
  | none =>
    have hnew : var ∉ s.names := by
      intro hv
      obtain ⟨i, hi⟩ := List.mem_iff_getElem?.1 hv
      rw [h.lookup_iff.2 hi] at hl
      cases hl
    have hnames : names ⟨s.varToIdx ++ [(var, s.parent.length)], s.parent ++ [s.parent.length], s.rank ++ [0]⟩ =
        s.names ++ [var] := by
      rw [names, List.map_append]
      rfl
    have hranks : rankAt (s.rank ++ [0]) = rankAt s.rank := by
      funext x
      rw [rankAt, rankAt, List.getD_eq_getElem?_getD, List.getD_eq_getElem?_getD]
      rcases Nat.lt_trichotomy x s.rank.length with hx | rfl | hx
      · rw [List.getElem?_append_left hx]
      · simp
      · rw [List.getElem?_eq_none hx.le, List.getElem?_eq_none]
        rw [List.length_append, List.length_singleton]
        exact hx
    obtain ⟨hforest, hroots⟩ := h.forest.grow
    have hroot : ∀ i, UnionFind.root ⟨s.varToIdx ++ [(var, s.parent.length)], s.parent ++ [s.parent.length],
        s.rank ++ [0]⟩ i = s.root i := by
      intro i
      rw [UnionFind.root, parentAt_append_self, List.length_append, List.length_singleton, hroots, UnionFind.root]
    have hold : ∀ (i : Nat) x, s.names[i]? = some x → (s.names ++ [var])[i]? = some x := fun i x hi => by
      rw [List.getElem?_append_left (List.getElem?_eq_some_iff.1 hi).1, hi]
    -- the new variable is alone in its tree, and alone in its class
    have hself : s.root s.parent.length = s.parent.length :=
      Forest.rootOf_of_root (h.forest.outside _ le_rfl)
    have hcases : ∀ (i : Nat) x, (s.names ++ [var])[i]? = some x →
        s.names[i]? = some x ∨ (i = s.parent.length ∧ x = var) := by
      intro i x hi
      rw [← h.names_length]
      rcases Nat.lt_or_ge i s.names.length with hlt | hge
      · rw [List.getElem?_append_left hlt] at hi
        exact .inl hi
      · rw [List.getElem?_append_right hge] at hi
        obtain ⟨hlt, hx⟩ := List.getElem?_eq_some_iff.1 hi
        simp only [List.length_singleton, Nat.lt_one_iff] at hlt
        simp only [hlt, List.getElem_cons_zero] at hx
        exact .inr ⟨by omega, hx.symm⟩
    have hisolated : ∀ x, Relation.EqvGen R x var → x = var := by
      refine fun x => eqvGen_isolated fun a b hab => ⟨?_, ?_⟩
      · rintro rfl
        exact hnew (h.mem _ _ hab).1
      · rintro rfl
        exact hnew (h.mem _ _ hab).2
    refine ⟨⟨⟨?_, ?_, ?_, ?_⟩, fun x y hxy => ?_, fun i j x y hi hj => ?_⟩, ?_, fun x => ?_, fun i x hi => ?_⟩
    · simp only [List.map_append, h.indices, List.length_append, List.length_singleton, List.range_succ]
      rfl
    · rw [hnames]
      exact List.nodup_append.2 ⟨h.nodup, List.nodup_singleton var, fun x hx y hy he =>
        hnew (List.mem_singleton.1 hy ▸ he ▸ hx)⟩
    · simp only [List.length_append, List.length_singleton, h.ranks]
    · simp only [parentAt_append_self, hranks, List.length_append, List.length_singleton]
      exact hforest
    · rw [hnames]
      exact (h.mem x y hxy).imp (List.mem_append_left _) (List.mem_append_left _)
    · rw [hnames] at hi hj
      rw [hroot, hroot]
      have hother : ∀ (i : Nat) x, s.names[i]? = some x → s.root i ≠ s.root s.parent.length ∧
          ¬ Relation.EqvGen R x var := by
        intro i x hi
        refine ⟨fun he => ?_, fun he => hnew ?_⟩
        · rw [hself] at he
          exact absurd (h.forest.rootOf_lt (h.lt_of_name hi)) (by rw [← UnionFind.root, he]; exact lt_irrefl _)
        · exact hisolated x he ▸ List.mem_of_getElem? hi
      rcases hcases i x hi with hi | ⟨hi, hx⟩ <;> rcases hcases j y hj with hj | ⟨hj, hy⟩
      · exact h.same i j x y hi hj
      · rw [hj, hy]
        exact iff_of_false (hother i x hi).1 (hother i x hi).2
      · rw [hi, hx]
        exact iff_of_false (Ne.symm (hother j y hj).1) fun he => (hother j y hj).2 he.symm
      · rw [hi, hj, hx, hy]
        exact iff_of_true rfl (.refl _)
    · rw [hnames, ← h.names_length]
      simp
    · rw [hnames, List.mem_append, List.mem_singleton]
    · rw [hnames]
      exact hold i x hi

theorem Holds.of_roots (h : Holds R s) {s' : UnionFind} (hs' : Valid s') (hvars : s'.varToIdx = s.varToIdx)
    (hroots : ∀ i, s'.root i = s.root i) : Holds R s' := by
  have hnames := names_congr hvars
  refine ⟨hs', fun x y hxy => hnames ▸ h.mem x y hxy, fun i j x y hi hj => ?_⟩
  rw [hroots, hroots]
  exact h.same i j x y (hnames ▸ hi) (hnames ▸ hj)

/-- A table whose roots are those of `s` with two trees joined. -/
theorem Holds.join (h : Holds R s) {s' : UnionFind} (hs' : Valid s') (hvars : s'.varToIdx = s.varToIdx)
    {idxA idxB : Nat} {a b : VarName} (ha : s.names[idxA]? = some a) (hb : s.names[idxB]? = some b)
    (hroots : ∀ i j, s'.root i = s'.root j ↔ s.root i = s.root j ∨
      (s.root i = s.root idxA ∧ s.root j = s.root idxB) ∨ (s.root i = s.root idxB ∧ s.root j = s.root idxA)) :
    Holds (joined R a b) s' := by
  have hnames := names_congr hvars
  refine ⟨hs', fun x y hxy => ?_, fun i j x y hi hj => ?_⟩
  · rw [hnames]
    rcases hxy with hxy | ⟨rfl, rfl⟩
    · exact h.mem x y hxy
    · exact ⟨List.mem_of_getElem? ha, List.mem_of_getElem? hb⟩
  · rw [hnames] at hi hj
    rw [hroots, h.same i j x y hi hj, h.same i idxA x a hi ha, h.same j idxB y b hj hb, h.same i idxB x b hi hb,
      h.same j idxA y a hj ha]
    have hsymm : ∀ {u v : VarName}, Relation.EqvGen R u v ↔ Relation.EqvGen R v u := ⟨.symm _ _, .symm _ _⟩
    rw [hsymm (u := y) (v := b), hsymm (u := y) (v := a)]
    exact (eqvGen_join x y).symm

theorem linkRoots_spec (h : Holds R s) {idxA idxB : Nat} {a b : VarName} (ha : s.names[idxA]? = some a)
    (hb : s.names[idxB]? = some b) :
    ∃ s', s.linkRoots (s.root idxA) (s.root idxB) = some s' ∧ Holds (joined R a b) s' ∧ s'.varToIdx = s.varToIdx := by
  have hA := h.root_lt (h.lt_of_name ha)
  have hB := h.root_lt (h.lt_of_name hb)
  have hfixA : parentAt s.parent (s.root idxA) = s.root idxA := h.forest.parent_rootOf idxA
  have hfixB : parentAt s.parent (s.root idxB) = s.root idxB := h.forest.parent_rootOf idxB
  -- a link of one root under the other, at new ranks
  have hlink : ∀ (child top : Nat) (ranks : List Nat), child < s.parent.length →
      parentAt s.parent child = child → parentAt s.parent top = top → child ≠ top →
      (∀ i j, (s.root i = s.root j ∨ (s.root i = child ∧ s.root j = top) ∨ (s.root i = top ∧ s.root j = child)) ↔
        s.root i = s.root j ∨ (s.root i = s.root idxA ∧ s.root j = s.root idxB) ∨
          (s.root i = s.root idxB ∧ s.root j = s.root idxA)) →
      ranks.length = s.parent.length →
      Forest s.parent.length (rankAt ranks) (Function.update (parentAt s.parent) child top) →
      Holds (joined R a b) ⟨s.varToIdx, s.parent.set child top, ranks⟩ := by
    intro child top ranks hchild hfix hfix' hne hcases hranks hforest
    have hvalid : Valid ⟨s.varToIdx, s.parent.set child top, ranks⟩ := by
      refine ⟨?_, h.nodup, ?_, ?_⟩
      · rw [List.length_set]
        exact h.indices
      · rw [List.length_set]
        exact hranks
      · rw [List.length_set, parentAt_set hchild]
        exact hforest
    refine h.join hvalid rfl ha hb fun i j => ?_
    rw [← hcases, ← link_eq_iff]
    simp only [UnionFind.root, List.length_set, parentAt_set hchild]
    rw [h.forest.link hfix hfix' hforest hne, h.forest.link hfix hfix' hforest hne]
    exact Iff.rfl
  unfold linkRoots
  by_cases hne : s.root idxA = s.root idxB
  · refine ⟨s, by rw [if_pos hne]; rfl, h.join h.toValid rfl ha hb fun i j => ⟨.inl, ?_⟩, rfl⟩
    rintro (hij | ⟨hi, hj⟩ | ⟨hi, hj⟩)
    · exact hij
    · rw [hi, hj, hne]
    · rw [hi, hj, hne]
  simp only [if_neg hne, getElem?_rankAt (h.ranks ▸ hA), getElem?_rankAt (h.ranks ▸ hB), Option.bind_eq_bind,
    Option.bind_some]
  by_cases hlt : rankAt s.rank (s.root idxA) < rankAt s.rank (s.root idxB)
  · refine ⟨_, by rw [if_pos hlt]; rfl, hlink _ _ _ hA hfixA hfixB hne (fun i j => Iff.rfl) h.ranks ?_, rfl⟩
    exact h.forest.link_forest _ hA hB hfixB (fun _ _ => rfl) le_rfl hlt hne
  by_cases hgt : rankAt s.rank (s.root idxA) > rankAt s.rank (s.root idxB)
  · refine ⟨_, by rw [if_neg hlt, if_pos hgt]; rfl, hlink _ _ _ hB hfixB hfixA (Ne.symm hne) (fun i j => ?_) h.ranks ?_,
      rfl⟩
    · rw [or_comm (a := s.root i = s.root idxB ∧ _)]
    · exact h.forest.link_forest _ hB hA hfixA (fun _ _ => rfl) le_rfl hgt (Ne.symm hne)
  refine ⟨_, by rw [if_neg hlt, if_neg hgt]; rfl, hlink _ _ _ hB hfixB hfixA (Ne.symm hne) (fun i j => ?_) ?_ ?_, rfl⟩
  · rw [or_comm (a := s.root i = s.root idxB ∧ _)]
  · rw [List.length_set]
    exact h.ranks
  · have hset : rankAt (s.rank.set (s.root idxA) (rankAt s.rank (s.root idxA) + 1)) (s.root idxA) =
        rankAt s.rank (s.root idxA) + 1 := by
      rw [rankAt, List.getD_eq_getElem?_getD, List.getElem?_set_self (h.ranks ▸ hA), Option.getD_some]
    refine h.forest.link_forest _ hB hA hfixA (fun x hx => ?_) ?_ ?_ (Ne.symm hne)
    · simp only [rankAt, List.getD_eq_getElem?_getD, List.getElem?_set_ne (Ne.symm hx)]
    · rw [hset]
      exact Nat.le_succ _
    · rw [hset]
      omega

theorem union_spec (h : Holds R s) (a b : VarName) :
    ∃ s', s.union a b = some s' ∧ Holds (joined R a b) s' ∧ ∀ x, x ∈ s'.names ↔ x ∈ s.names ∨ x = a ∨ x = b := by
  obtain ⟨h₁, ha, hmem₁, -⟩ := getOrInsertIdx_spec h a
  obtain ⟨h₂, hb, hmem₂, hkeep⟩ := getOrInsertIdx_spec h₁ b
  have ha := hkeep _ _ ha
  obtain ⟨s₃, hfind₃, hvalid₃, hvars₃, hlength₃, hroots₃⟩ := findIdx_spec h₂.toValid (h₂.lt_of_name ha)
  have h₃ := h₂.of_roots hvalid₃ hvars₃ hroots₃
  have hnames₃ := names_congr hvars₃
  obtain ⟨s₄, hfind₄, hvalid₄, hvars₄, hlength₄, hroots₄⟩ := findIdx_spec h₃.toValid
    (hlength₃ ▸ h₂.lt_of_name hb : _ < s₃.parent.length)
  have h₄ := h₃.of_roots hvalid₄ hvars₄ hroots₄
  have hnames₄ := names_congr hvars₄
  obtain ⟨s₅, hlink, h₅, hvars₅⟩ := linkRoots_spec h₄ (by rw [hnames₄, hnames₃]; exact ha)
    (by rw [hnames₄, hnames₃]; exact hb)
  have hnames₅ := names_congr hvars₅
  refine ⟨s₅, ?_, h₅, fun x => ?_⟩
  · rw [hroots₄, hroots₃, hroots₄] at hlink
    simp only [union, hfind₃, hfind₄, Option.bind_eq_bind, Option.bind_some]
    exact hlink
  · rw [hnames₅, hnames₄, hnames₃, hmem₂, hmem₁, or_assoc]

/-! ## Reading the sets -/

/-- The variables `vars` are those of `indices` whose root has the name `key`. -/
def Grouped (s : UnionFind) (indices : List Nat) (key : VarName) (vars : List VarName) : Prop :=
  vars.Nodup ∧ (∃ i ∈ indices, s.names[s.root i]? = some key) ∧
    ∀ x, x ∈ vars ↔ ∃ i ∈ indices, s.names[i]? = some x ∧ s.names[s.root i]? = some key

/-- What `get_sets` holds after the indices passed so far. -/
structure Grouping (s : UnionFind) (indices : List Nat) (state : UnionFind × List (VarName × List VarName)) : Prop where
  valid : Valid state.1
  vars : state.1.varToIdx = s.varToIdx
  roots : ∀ i, state.1.root i = s.root i
  keys : (state.2.map (·.1)).Nodup
  grouped : ∀ key vars, state.2.lookup key = some vars → Grouped s indices key vars
  covered : ∀ i ∈ indices, ∀ key, s.names[s.root i]? = some key → ∃ vars, state.2.lookup key = some vars

theorem getSetsStep_spec (h : Valid s) {pre : List Nat} {idx : Nat} (hidx : idx < s.parent.length) (hpre : idx ∉ pre)
    {state : UnionFind × List (VarName × List VarName)} (hs : Grouping s pre state) :
    ∃ state', getSetsStep state idx = some state' ∧ Grouping s (pre ++ [idx]) state' := by
  have hlength : state.1.parent.length = s.parent.length := by
    rw [← hs.valid.length, hs.vars, h.length]
  obtain ⟨t, hfind, hvalid, hvars, -, hroots⟩ := findIdx_spec hs.valid (hlength ▸ hidx)
  have hentry : ∀ i < s.parent.length, ∃ x, s.names[i]? = some x ∧ t.varToIdx[i]? = some (x, i) := by
    intro i hi
    obtain ⟨x, hx⟩ : ∃ x, s.varToIdx[i]? = some x := ⟨_, List.getElem?_eq_getElem (h.length ▸ hi)⟩
    refine ⟨x.1, by rw [names, List.getElem?_map, hx]; rfl, ?_⟩
    rw [hvars, hs.vars, hx, ← h.getElem? hx]
  obtain ⟨x, hx, hentryx⟩ := hentry idx hidx
  obtain ⟨r, hr, hentryr⟩ := hentry (s.root idx) (h.root_lt hidx)
  refine ⟨(t, pushEntry state.2 r x), ?_, ⟨hvalid, hvars.trans hs.vars, fun i => (hroots i).trans (hs.roots i), ?_,
    fun key vars hl => ?_, fun i hi key hkey => ?_⟩⟩
  · simp only [getSetsStep, hfind, hs.roots, hentryx, hentryr, Option.bind_eq_bind, Option.bind_some]
    rfl
  · exact keys_pushEntry_nodup hs.keys r x
  · -- a variable of an earlier index is not the new one
    have hfresh : ∀ i ∈ pre, s.names[i]? ≠ some x := by
      intro i hi hix
      exact hpre (index_unique h hix hx ▸ hi)
    simp only [lookup_pushEntry] at hl
    by_cases hk : key = r
    · subst hk
      rw [if_pos rfl] at hl
      obtain rfl := Option.some.inj hl
      have hold : ((state.2.lookup key).getD []).Nodup ∧ ∀ y, y ∈ (state.2.lookup key).getD [] ↔
          ∃ i ∈ pre, s.names[i]? = some y ∧ s.names[s.root i]? = some key := by
        cases hlk : state.2.lookup key with
        | some vars => exact ⟨(hs.grouped key vars hlk).1, (hs.grouped key vars hlk).2.2⟩
        | none =>
          refine ⟨List.nodup_nil, fun y => iff_of_false List.not_mem_nil ?_⟩
          rintro ⟨i, hi, -, hroot⟩
          obtain ⟨vars, hvars'⟩ := hs.covered i hi key hroot
          rw [hlk] at hvars'
          cases hvars'
      refine ⟨List.nodup_append.2 ⟨hold.1, List.nodup_singleton x, fun a ha b hb he => ?_⟩, ⟨idx, by simp, hr⟩,
        fun y => ?_⟩
      · obtain ⟨i, hi, hia, -⟩ := (hold.2 a).1 ha
        rw [he, List.mem_singleton.1 hb] at hia
        exact hfresh i hi hia
      · rw [List.mem_append, hold.2, List.mem_singleton]
        constructor
        · rintro (⟨i, hi, hiy⟩ | rfl)
          · exact ⟨i, List.mem_append_left _ hi, hiy⟩
          · exact ⟨idx, by simp, hx, hr⟩
        · rintro ⟨i, hi, hiy, hroot⟩
          rcases List.mem_append.1 hi with hi | hi
          · exact .inl ⟨i, hi, hiy, hroot⟩
          · rw [List.mem_singleton.1 hi, hx] at hiy
            exact .inr (Option.some.inj hiy).symm
    · rw [if_neg hk] at hl
      obtain ⟨hnodup, ⟨i, hi, hroot⟩, hmem⟩ := hs.grouped key vars hl
      refine ⟨hnodup, ⟨i, List.mem_append_left _ hi, hroot⟩, fun y => (hmem y).trans ⟨?_, ?_⟩⟩
      · rintro ⟨i, hi, hiy⟩
        exact ⟨i, List.mem_append_left _ hi, hiy⟩
      · rintro ⟨i, hi, hiy, hroot⟩
        rcases List.mem_append.1 hi with hi | hi
        · exact ⟨i, hi, hiy, hroot⟩
        · rw [List.mem_singleton.1 hi, hr] at hroot
          exact absurd (Option.some.inj hroot).symm hk
  · simp only [lookup_pushEntry]
    by_cases hk : key = r
    · exact ⟨_, if_pos hk⟩
    · rw [if_neg hk]
      rcases List.mem_append.1 hi with hi | hi
      · exact hs.covered i hi key hkey
      · rw [List.mem_singleton.1 hi, hr] at hkey
        exact absurd (Option.some.inj hkey).symm hk

def IsComponent (R : VarName → VarName → Prop) (S : Set VarName) : Prop :=
  ∃ x, (∃ y, R x y ∨ R y x) ∧ S = {z | Relation.EqvGen R x z}

/-- The lists are the components of `R`, each once and without repetition. -/
structure Partitions (R : VarName → VarName → Prop) (sets : List (List VarName)) : Prop where
  component : ∀ S, (∃ vars ∈ sets, {v | v ∈ vars} = S) ↔ IsComponent R S
  nodup : ∀ vars ∈ sets, vars.Nodup
  disjoint : sets.Pairwise List.Disjoint

theorem grouped_iff (h : Holds R s) {i : Nat} {x key : VarName} (hi : s.names[i]? = some x)
    (hkey : s.names[s.root i]? = some key) (z : VarName) :
    (∃ j ∈ List.range s.parent.length, s.names[j]? = some z ∧ s.names[s.root j]? = some key) ↔
      Relation.EqvGen R x z := by
  constructor
  · rintro ⟨j, -, hj, hroot⟩
    exact (h.same i j x z hi hj).1 (index_unique h.toValid hkey hroot)
  · intro hxz
    have hz : z ∈ s.names := by
      by_contra hz
      refine hz (eqvGen_isolated (fun a b hab => ⟨?_, ?_⟩) hxz ▸ List.mem_of_getElem? hi)
      · rintro rfl
        exact hz (h.mem _ _ hab).1
      · rintro rfl
        exact hz (h.mem _ _ hab).2
    obtain ⟨j, hj⟩ := List.mem_iff_getElem?.1 hz
    exact ⟨j, List.mem_range.2 (h.lt_of_name hj), hj, (h.same i j x z hi hj).2 hxz ▸ hkey⟩

theorem getSets_spec (h : Holds R s) (hmem : ∀ x ∈ s.names, ∃ y, R x y ∨ R y x) :
    ∃ s' sets, s.getSets = some (s', sets) ∧ Partitions R (sets.map (·.2)) := by
  have hstart : Grouping s [] (s, []) := by
    refine ⟨h.toValid, rfl, fun _ => rfl, List.nodup_nil, fun key vars hl => ?_, fun i hi => ?_⟩
    · cases hl
    · cases hi
  have hturn : ∀ pre idx post state, List.range s.parent.length = pre ++ idx :: post → Grouping s pre state →
      ∃ state', getSetsStep state idx = some state' ∧ Grouping s (pre ++ [idx]) state' := by
    intro pre idx post state hl hs
    have hmem : idx ∈ List.range s.parent.length := hl ▸ by simp
    have hnodup : (pre ++ idx :: post).Nodup := hl ▸ List.nodup_range
    exact getSetsStep_spec h.toValid (List.mem_range.1 hmem)
      (fun hpre => (List.nodup_append.1 hnodup).2.2 _ hpre _ (by simp) rfl) hs
  obtain ⟨⟨s', sets⟩, hsets, hg⟩ := foldlM_spec (Grouping s) hturn hstart
  refine ⟨s', sets, hsets, fun S => ⟨?_, ?_⟩, fun vars hvars => ?_, ?_⟩
  · rintro ⟨vars, hvars, rfl⟩
    obtain ⟨⟨key, vars⟩, he, rfl⟩ := List.mem_map.1 hvars
    obtain ⟨-, ⟨i, hi, hroot⟩, hmemvars⟩ := hg.grouped key vars (lookup_of_mem_keys hg.keys he)
    obtain ⟨x, hx⟩ := name_of_lt h.toValid (List.mem_range.1 hi)
    refine ⟨x, hmem x (List.mem_of_getElem? hx), Set.ext fun z => ?_⟩
    exact (hmemvars z).trans (grouped_iff h hx hroot z)
  · rintro ⟨x, ⟨y, hy⟩, rfl⟩
    have hxmem : x ∈ s.names := by
      rcases hy with hy | hy
      · exact (h.mem x y hy).1
      · exact (h.mem y x hy).2
    obtain ⟨i, hi⟩ := List.mem_iff_getElem?.1 hxmem
    obtain ⟨key, hkey⟩ := name_of_lt h.toValid (h.root_lt (h.lt_of_name hi))
    obtain ⟨vars, hvars⟩ := hg.covered i (List.mem_range.2 (h.lt_of_name hi)) key hkey
    obtain ⟨l₁, l₂, rfl, -⟩ := List.lookup_eq_some_iff.1 hvars
    refine ⟨vars, by simp, Set.ext fun z => ?_⟩
    exact ((hg.grouped key vars hvars).2.2 z).trans (grouped_iff h hi hkey z)
  · obtain ⟨⟨key, vars⟩, he, rfl⟩ := List.mem_map.1 hvars
    exact (hg.grouped key vars (lookup_of_mem_keys hg.keys he)).1
  · rw [List.pairwise_map]
    have hkeys := List.pairwise_map.1 hg.keys
    refine hkeys.imp_of_mem fun {e e'} he he' hne => ?_
    intro x hx hx'
    obtain ⟨i, -, hi, hroot⟩ := ((hg.grouped e.1 e.2 (lookup_of_mem_keys hg.keys he)).2.2 x).1 hx
    obtain ⟨j, -, hj, hroot'⟩ := ((hg.grouped e'.1 e'.2 (lookup_of_mem_keys hg.keys he')).2.2 x).1 hx'
    rw [index_unique h.toValid hi hj, hroot'] at hroot
    exact hne (Option.some.inj hroot).symm

/-! ## Sequences of operations -/

/-- The table after unions of `pairs`: their variables, in the classes they generate. -/
structure Represents (pairs : List (VarName × VarName)) (s : UnionFind) : Prop where
  holds : Holds (fun x y => (x, y) ∈ pairs) s
  mem : ∀ x ∈ s.names, ∃ y, (x, y) ∈ pairs ∨ (y, x) ∈ pairs

theorem represents_new : Represents [] new := by
  refine ⟨?_, fun x hx => by cases hx⟩
  have hrel : (fun x y : VarName => (x, y) ∈ ([] : List (VarName × VarName))) = fun _ _ => False := by
    funext x y
    simp
  rw [hrel]
  exact holds_new

theorem union_represents {pairs : List (VarName × VarName)} (h : Represents pairs s) (a b : VarName) :
    ∃ s', s.union a b = some s' ∧ Represents (pairs ++ [(a, b)]) s' := by
  obtain ⟨s', hunion, hholds, hmem⟩ := union_spec h.holds a b
  have hrel : (fun x y => (x, y) ∈ pairs ++ [(a, b)]) = joined (fun x y => (x, y) ∈ pairs) a b := by
    funext x y
    simp [joined]
  refine ⟨s', hunion, hrel ▸ hholds, fun x hx => ?_⟩
  simp only [List.mem_append, List.mem_singleton, Prod.mk.injEq]
  rcases (hmem x).1 hx with hx | rfl | rfl
  · obtain ⟨y, hy⟩ := h.mem x hx
    exact ⟨y, hy.imp .inl .inl⟩
  · exact ⟨b, .inl (.inr ⟨rfl, rfl⟩)⟩
  · exact ⟨a, .inr (.inr ⟨rfl, rfl⟩)⟩

theorem ofPairs_represents (pairs : List (VarName × VarName)) : ∃ s', ofPairs pairs = some s' ∧ Represents pairs s' :=
  foldlM_spec Represents (fun _ pair _ _ _ hs => union_represents hs pair.1 pair.2) represents_new

theorem getSets_represents {pairs : List (VarName × VarName)} (h : Represents pairs s) :
    ∃ s' sets, s.getSets = some (s', sets) ∧ Partitions (fun x y => (x, y) ∈ pairs) (sets.map (·.2)) :=
  getSets_spec h.holds h.mem

/-- An operation on the table. -/
inductive Operation where
  | union (a b : VarName)
  | find (var : VarName)
deriving DecidableEq, Repr

def apply (s : UnionFind) : Operation → Option UnionFind
  | .union a b => s.union a b
  | .find var => (s.find var).map (·.1)

theorem find_spec (h : Holds R s) (var : VarName) : ∃ s' root, s.find var = some (s', root) ∧ Holds R s' := by
  obtain ⟨h₁, hvar, -, -⟩ := getOrInsertIdx_spec h var
  have hlt := h₁.lt_of_name hvar
  obtain ⟨s', hfind, hvalid, hvars, hlength, hroots⟩ := findIdx_spec h₁.toValid hlt
  obtain ⟨entry, hentry⟩ : ∃ entry, s'.varToIdx[(s.getOrInsertIdx var).1.root (s.getOrInsertIdx var).2]? = some entry := by
    refine ⟨_, List.getElem?_eq_getElem ?_⟩
    rw [hvalid.length, hlength]
    exact h₁.root_lt hlt
  refine ⟨s', entry.1, ?_, h₁.of_roots hvalid hvars hroots⟩
  simp only [find, hfind, hentry, Option.bind_eq_bind, Option.bind_some]
  rfl

/-- No operation after any others loops, and every find loop on the table they leave ends. -/
theorem apply_total (operations : List Operation) :
    ∃ s', operations.foldlM apply new = some s' ∧
      ∀ idx < s'.parent.length, ∃ s'' root, s'.findIdx idx = some (s'', root) := by
  obtain ⟨s', hs', R, hR⟩ := foldlM_spec (fun _ s => ∃ R, Holds R s) (f := apply) (l := operations)
    (fun _ operation _ s _ ⟨R, hR⟩ => by
      cases operation with
      | union a b =>
        obtain ⟨s', hs', hholds, -⟩ := union_spec hR a b
        exact ⟨s', hs', _, hholds⟩
      | find var =>
        obtain ⟨s', root, hs', hholds⟩ := find_spec hR var
        exact ⟨s', by rw [apply, hs']; rfl, R, hholds⟩) ⟨_, holds_new⟩
  refine ⟨s', hs', fun idx hidx => ?_⟩
  obtain ⟨s'', hfind, -⟩ := findIdx_spec hR.toValid hidx
  exact ⟨s'', _, hfind⟩

end

end UnionFind

end Rumoca.Flatten
