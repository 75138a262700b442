import Rumoca.Structural.Tarjan
import Rumoca.Lib.Components
/-!
# What Tarjan's search returns

`Inv` is the invariant of the explicit-stack search: the node stack is
sorted by index, an open node reaches everything above it, everything on the
stack reaches an open node at or below it, and the lowlink of an open node
bounds the scanned edges of its segment of the stack. A turn of the loop
scans a neighbour (`inv_scan`), opens a node (`inv_open`) or closes one
(`inv_finish`). `tarjanScc_spec`: the search ends, and its components are a
`ComponentOrder` of the graph.
-/

namespace Rumoca.Structural

open Rumoca.Lib

def Edge (adj : List (List Nat)) (x y : Nat) : Prop := y ∈ neighbors adj x

namespace TarjanState

def idx (s : TarjanState) (x : Nat) : Nat := (s.index x).getD 0

def Visited (s : TarjanState) (x : Nat) : Prop := (s.index x).isSome = true

instance (s : TarjanState) : DecidablePred s.Visited := fun x =>
  inferInstanceAs (Decidable ((s.index x).isSome = true))

def openNodes (s : TarjanState) : List Nat := s.frames.map (·.node)

/-- The edges of `x` the search has looked at: all of them once `x` has no frame. -/
def Scanned (adj : List (List Nat)) (s : TarjanState) (x y : Nat) : Prop :=
  y ∈ neighbors adj x ∧ ∀ f ∈ s.frames, f.node = x → y ∈ (neighbors adj x).take f.cursor

/-- `v` is the last opened of the open nodes at or below `x`. -/
def Owner (s : TarjanState) (v x : Nat) : Prop :=
  v ∈ s.openNodes ∧ s.idx v ≤ s.idx x ∧ ∀ u ∈ s.openNodes, s.idx u ≤ s.idx x → s.idx u ≤ s.idx v

structure Inv (adj : List (List Nat)) (n : Nat) (s : TarjanState) : Prop where
  index_lt : ∀ x i, s.index x = some i → x < n ∧ i < s.indexCounter
  count : ((Finset.range n).filter s.Visited).card = s.indexCounter
  stack_sorted : s.stack.Pairwise fun a b => s.idx b < s.idx a
  stack_visited : ∀ x ∈ s.stack, s.Visited x
  on_stack : ∀ x, s.onStack x = true ↔ x ∈ s.stack
  open_sorted : s.openNodes.Pairwise fun a b => s.idx b < s.idx a
  open_stack : ∀ v ∈ s.openNodes, v ∈ s.stack
  scanned : ∀ x y, s.Visited x → Scanned adj s x y → s.Visited y
  emitted : ∀ x, x ∈ s.sccs.flatten ↔ s.Visited x ∧ x ∉ s.stack
  order : ComponentOrder (Edge adj) s.sccs
  below : ∀ v ∈ s.openNodes, ∀ x ∈ s.stack, s.idx v ≤ s.idx x → Reaches (Edge adj) v x
  above : ∀ x ∈ s.stack, ∃ v ∈ s.openNodes, s.idx v ≤ s.idx x ∧ Reaches (Edge adj) x v
  link : ∀ v ∈ s.openNodes, ∃ y ∈ s.stack,
    s.idx y = s.lowlink v ∧ s.idx y ≤ s.idx v ∧ Reaches (Edge adj) v y
  bound : ∀ v x, x ∈ s.stack → s.Owner v x → ∀ y ∈ s.stack, Scanned adj s x y → s.lowlink v ≤ s.idx y

variable {adj : List (List Nat)} {n : Nat} {s : TarjanState}

theorem idx_of_index {x i : Nat} (h : s.index x = some i) : s.idx x = i := by simp [idx, h]

theorem Inv.idx_lt (h : Inv adj n s) {x : Nat} (hx : s.Visited x) : s.idx x < s.indexCounter := by
  obtain ⟨i, hi⟩ := Option.isSome_iff_exists.1 hx
  rw [idx_of_index hi]
  exact (h.index_lt x i hi).2

theorem Inv.stack_idx_lt (h : Inv adj n s) {x : Nat} (hx : x ∈ s.stack) : s.idx x < s.indexCounter :=
  h.idx_lt (h.stack_visited x hx)

theorem Inv.stack_inj (h : Inv adj n s) {x y : Nat} (hx : x ∈ s.stack) (hy : y ∈ s.stack)
    (he : s.idx x = s.idx y) : x = y := by
  by_contra hne
  have hp : s.stack.Pairwise fun a b => s.idx a ≠ s.idx b :=
    h.stack_sorted.imp fun hab => (Nat.ne_of_lt hab).symm
  have : Std.Symm fun a b => s.idx a ≠ s.idx b := ⟨fun _ _ hab => hab.symm⟩
  exact hp.forall hx hy hne he

theorem inv_new : Inv adj n TarjanState.new where
  index_lt x i h := by simp [TarjanState.new] at h
  count := by
    rw [Finset.card_eq_zero.2 (Finset.filter_eq_empty_iff.2 fun x _ h => ?_)]
    · rfl
    · simp [TarjanState.new, Visited] at h
  stack_sorted := .nil
  stack_visited x h := by simp [TarjanState.new] at h
  on_stack x := by simp [TarjanState.new]
  open_sorted := .nil
  open_stack v h := by simp [TarjanState.new, openNodes] at h
  scanned x y h := by simp [TarjanState.new, Visited] at h
  emitted x := by simp [TarjanState.new, Visited]
  order := .nil
  below v h := by simp [TarjanState.new, openNodes] at h
  above x h := by simp [TarjanState.new] at h
  link v h := by simp [TarjanState.new, openNodes] at h
  bound v x h := by simp [TarjanState.new] at h

theorem Inv.stack_nil (h : Inv adj n s) (hf : s.frames = []) : s.stack = [] := by
  rcases hs : s.stack with _ | ⟨x, xs⟩
  · rfl
  · obtain ⟨v, hv, -⟩ := h.above x (by simp [hs])
    simp [openNodes, hf] at hv

/-! ## Scanning a visited neighbour -/

/-- The state after the neighbour `w` of the top frame `v`, already visited
with index `i`, has been looked at. -/
def scanOne (s : TarjanState) (v w i cursor : Nat) : TarjanState :=
  (if s.onStack w then s.lowerLink v i else s).setCursor (cursor + 1)

section Scan
variable {v w i cursor : Nat} {rest : List TarjanFrame}

theorem scanOne_eq (hf : s.frames = ⟨v, cursor⟩ :: rest) :
    scanOne s v w i cursor = { s with
      frames := ⟨v, cursor + 1⟩ :: rest
      lowlink := if s.onStack w then Function.update s.lowlink v (min (s.lowlink v) i) else s.lowlink } := by
  unfold scanOne
  split <;> simp [setCursor, lowerLink, hf]

theorem scanned_advance {t : TarjanState} (hf : s.frames = ⟨v, cursor⟩ :: rest)
    (ht : t.frames = ⟨v, cursor + 1⟩ :: rest) (hw : (neighbors adj v)[cursor]? = some w) {x y : Nat}
    (h : Scanned adj t x y) : Scanned adj s x y ∨ (x = v ∧ y = w) := by
  obtain ⟨hy, hall⟩ := h
  by_cases hxv : x = v ∧ y = w
  · exact .inr hxv
  · refine .inl ⟨hy, fun f hfm hfx => ?_⟩
    rw [hf] at hfm
    rcases List.mem_cons.1 hfm with rfl | hfm
    · have ht' := hall ⟨v, cursor + 1⟩ (by simp [ht]) hfx
      simp only at hfx; subst hfx
      rw [List.take_add_one, hw, List.mem_append] at ht'
      exact ht'.resolve_right fun hyw => hxv ⟨rfl, by simpa using hyw⟩
    · exact hall f (by simp [ht, hfm]) hfx

theorem Inv.owner_top (h : Inv adj n s) (hf : s.frames = ⟨v, cursor⟩ :: rest) {u : Nat}
    (hu : s.Owner u v) : u = v := by
  have hv : v ∈ s.openNodes := by simp [openNodes, hf]
  exact h.stack_inj (h.open_stack u hu.1) (h.open_stack v hv)
    (le_antisymm hu.2.1 (hu.2.2 v hv (le_refl _)))

theorem inv_scan (h : Inv adj n s) (hf : s.frames = ⟨v, cursor⟩ :: rest)
    (hw : (neighbors adj v)[cursor]? = some w) (hi : s.index w = some i) :
    Inv adj n (scanOne s v w i cursor) := by
  rw [scanOne_eq hf]
  have hwv : s.Visited w := by simp [Visited, hi]
  have hiw : s.idx w = i := idx_of_index hi
  have hedge : Edge adj v w := List.mem_of_getElem? hw
  -- the state keeps its open nodes, and its lowlinks only go down
  set L : Nat → Nat := if s.onStack w then Function.update s.lowlink v (min (s.lowlink v) i) else s.lowlink
    with hL
  have hle : ∀ u, L u ≤ s.lowlink u := by
    intro u
    rw [hL]; split
    · by_cases huv : u = v
      · subst huv; simp
      · simp [huv]
    · exact le_refl _
  have hopen : openNodes { s with frames := ⟨v, cursor + 1⟩ :: rest, lowlink := L } = s.openNodes := by
    simp [openNodes, hf]
  have hsc : ∀ {x y}, Scanned adj { s with frames := ⟨v, cursor + 1⟩ :: rest, lowlink := L } x y →
      Scanned adj s x y ∨ (x = v ∧ y = w) := fun hxy => scanned_advance hf rfl hw hxy
  refine ⟨h.index_lt, h.count, h.stack_sorted, h.stack_visited, h.on_stack, ?_, ?_, ?_, h.emitted,
    h.order, ?_, ?_, ?_, ?_⟩
  · rw [hopen]; exact h.open_sorted
  · rw [hopen]; exact h.open_stack
  · intro x y hx hxy
    rcases hsc hxy with hxy | ⟨-, rfl⟩
    · exact h.scanned x y hx hxy
    · exact hwv
  · rw [hopen]; exact h.below
  · rw [hopen]; exact h.above
  · rw [hopen]
    intro u hu
    obtain ⟨y, hy, hyl, hyu, hr⟩ := h.link u hu
    by_cases hlow : L u = s.lowlink u
    · exact ⟨y, hy, hyl.trans hlow.symm, hyu, hr⟩
    · -- the lowlink that went down is the top node's, and it is `w`'s index
      have hwu : s.onStack w = true ∧ u = v ∧ i < s.lowlink u := by
        by_cases hon : s.onStack w = true
        · by_cases huv : u = v
          · refine ⟨hon, huv, ?_⟩
            by_contra hlt
            exact hlow (by subst huv; simp [hL, hon]; omega)
          · exact absurd (by simp [hL, hon, huv]) hlow
        · exact absurd (by simp [hL, hon]) hlow
      obtain ⟨hon, rfl, hlt⟩ := hwu
      refine ⟨w, (h.on_stack w).1 hon, ?_, ?_, .single hedge⟩
      · have hLu : L u = i := by simp [hL, hon]; omega
        show s.idx w = L u
        rw [hLu, hiw]
      · have : s.idx w ≤ s.idx u := by omega
        exact this
  · intro u x hx hown y hy hxy
    have hown' : s.Owner u x := by rw [Owner, hopen] at hown; exact hown
    rcases hsc hxy with hxy | ⟨rfl, rfl⟩
    · exact (hle u).trans (h.bound u x hx hown' y hy hxy)
    · obtain rfl := h.owner_top hf hown'
      have hon := (h.on_stack y).2 hy
      have hmin : L u ≤ i := by simp [hL, hon]
      show L u ≤ s.idx y
      omega

end Scan

/-! ## Opening a node -/

/-- `s` with `w` entered and given a frame above `fs`. -/
def opened (s : TarjanState) (fs : List TarjanFrame) (w : Nat) : TarjanState :=
  { s with
    index := Function.update s.index w (some s.indexCounter)
    lowlink := Function.update s.lowlink w s.indexCounter
    indexCounter := s.indexCounter + 1
    stack := w :: s.stack
    onStack := Function.update s.onStack w true
    frames := ⟨w, 0⟩ :: fs }

section Open
variable {w : Nat} {fs : List TarjanFrame}

@[simp] theorem opened_idx_self : (s.opened fs w).idx w = s.indexCounter := by simp [idx, opened]

theorem opened_idx {x : Nat} (h : x ≠ w) : (s.opened fs w).idx x = s.idx x := by simp [idx, opened, h]

theorem opened_visited {x : Nat} : (s.opened fs w).Visited x ↔ x = w ∨ s.Visited x := by
  by_cases h : x = w <;> simp [Visited, opened, h]

theorem opened_openNodes (h : fs.map (·.node) = s.openNodes) :
    (s.opened fs w).openNodes = w :: s.openNodes := by
  simp [openNodes, opened] at h ⊢
  exact h

theorem not_scanned_opened {y : Nat} : ¬ Scanned adj (s.opened fs w) w y := fun h => by
  have := h.2 ⟨w, 0⟩ (by simp [opened]) rfl
  simp at this

theorem inv_open (h : Inv adj n s) (hw : ¬ s.Visited w) (hwn : w < n) (hfs : fs.map (·.node) = s.openNodes)
    (hsc : ∀ x y, Scanned adj (s.opened fs w) x y → x ≠ w → Scanned adj s x y ∨ y = w)
    (hreach : ∀ v ∈ s.openNodes, Reaches (Edge adj) v w) : Inv adj n (s.opened fs w) := by
  have hwst : w ∉ s.stack := fun hm => hw (h.stack_visited w hm)
  have hne : ∀ x ∈ s.stack, x ≠ w := fun x hx he => hwst (he ▸ hx)
  have hneo : ∀ v ∈ s.openNodes, v ≠ w := fun v hv => hne v (h.open_stack v hv)
  have hopen := opened_openNodes (s := s) (w := w) hfs
  refine ⟨?_, ?_, ?_, ?_, ?_, ?_, ?_, ?_, ?_, h.order, ?_, ?_, ?_, ?_⟩
  · intro x i hx
    by_cases hxw : x = w
    · subst hxw
      simp only [opened, Function.update_self, Option.some.injEq] at hx
      subst hx
      exact ⟨hwn, Nat.lt_succ_self _⟩
    · simp only [opened, Function.update_of_ne hxw] at hx
      exact (h.index_lt x i hx).imp id fun hi => Nat.lt_succ_of_lt hi
  · have hins : (Finset.range n).filter (s.opened fs w).Visited =
        insert w ((Finset.range n).filter s.Visited) := by
      ext x
      simp only [Finset.mem_filter, Finset.mem_range, opened_visited, Finset.mem_insert]
      constructor
      · rintro ⟨hx, rfl | hv⟩
        · exact .inl rfl
        · exact .inr ⟨hx, hv⟩
      · rintro (rfl | ⟨hx, hv⟩)
        · exact ⟨hwn, .inl rfl⟩
        · exact ⟨hx, .inr hv⟩
    rw [hins, Finset.card_insert_of_notMem (by simp [hw]), h.count]
    rfl
  · refine List.pairwise_cons.2 ⟨fun x hx => ?_, h.stack_sorted.imp_of_mem fun ha hb hab => ?_⟩
    · rw [opened_idx (hne x hx), opened_idx_self]
      exact h.stack_idx_lt hx
    · rwa [opened_idx (hne _ ha), opened_idx (hne _ hb)]
  · intro x hx
    rcases List.mem_cons.1 hx with rfl | hx
    · exact opened_visited.2 (.inl rfl)
    · exact opened_visited.2 (.inr (h.stack_visited x hx))
  · intro x
    by_cases hxw : x = w
    · simp [opened, hxw]
    · simp [opened, hxw, h.on_stack x]
  · rw [hopen]
    refine List.pairwise_cons.2 ⟨fun v hv => ?_, h.open_sorted.imp_of_mem fun ha hb hab => ?_⟩
    · rw [opened_idx (hneo v hv), opened_idx_self]
      exact h.stack_idx_lt (h.open_stack v hv)
    · rwa [opened_idx (hneo _ ha), opened_idx (hneo _ hb)]
  · rw [hopen]
    intro v hv
    rcases List.mem_cons.1 hv with rfl | hv
    · exact List.mem_cons_self
    · exact List.mem_cons_of_mem _ (h.open_stack v hv)
  · intro x y hx hxy
    by_cases hxw : x = w
    · subst hxw; exact absurd hxy not_scanned_opened
    · rcases hsc x y hxy hxw with hs | rfl
      · exact opened_visited.2 (.inr (h.scanned x y ((opened_visited.1 hx).resolve_left hxw) hs))
      · exact opened_visited.2 (.inl rfl)
  · intro x
    show x ∈ s.sccs.flatten ↔ (s.opened fs w).Visited x ∧ x ∉ w :: s.stack
    rw [h.emitted, opened_visited, List.mem_cons]
    constructor
    · rintro ⟨hv, hs⟩
      exact ⟨.inr hv, by rintro (rfl | hm); exacts [hw hv, hs hm]⟩
    · rintro ⟨rfl | hv, hs⟩
      · exact absurd (.inl rfl) hs
      · exact ⟨hv, fun hm => hs (.inr hm)⟩
  · rw [hopen]
    intro v hv x hx hle
    rcases List.mem_cons.1 hv with rfl | hv' <;> rcases List.mem_cons.1 hx with rfl | hx'
    · exact .refl
    · rw [opened_idx_self, opened_idx (hne x hx')] at hle
      exact absurd (h.stack_idx_lt hx') (by omega)
    · exact hreach v hv'
    · rw [opened_idx (hneo v hv'), opened_idx (hne x hx')] at hle
      exact h.below v hv' x hx' hle
  · rw [hopen]
    intro x hx
    rcases List.mem_cons.1 hx with rfl | hx
    · exact ⟨x, List.mem_cons_self, le_refl _, .refl⟩
    · obtain ⟨v, hv, hle, hr⟩ := h.above x hx
      exact ⟨v, List.mem_cons_of_mem _ hv, by rwa [opened_idx (hneo v hv), opened_idx (hne x hx)], hr⟩
  · rw [hopen]
    intro v hv
    rcases List.mem_cons.1 hv with rfl | hv
    · exact ⟨v, List.mem_cons_self, by simp [opened, idx], le_refl _, .refl⟩
    · obtain ⟨y, hy, hl, hle, hr⟩ := h.link v hv
      refine ⟨y, List.mem_cons_of_mem _ hy, ?_, ?_, hr⟩
      · rw [opened_idx (hne y hy)]; simp [opened, hneo v hv, hl]
      · rwa [opened_idx (hne y hy), opened_idx (hneo v hv)]
  · intro v x hx hown y hy hxy
    have hxw : x ≠ w := by rintro rfl; exact not_scanned_opened hxy
    have hx' : x ∈ s.stack := (List.mem_cons.1 hx).resolve_left hxw
    obtain ⟨hv, hle, hmax⟩ := hown
    rw [hopen] at hv hmax
    have hvw : v ≠ w := by
      rintro rfl
      rw [opened_idx_self, opened_idx hxw] at hle
      exact absurd (h.stack_idx_lt hx') (by omega)
    have hv' : v ∈ s.openNodes := (List.mem_cons.1 hv).resolve_left hvw
    have hown' : s.Owner v x := by
      rw [opened_idx hvw, opened_idx hxw] at hle
      refine ⟨hv', hle, fun u hu hux => ?_⟩
      have := hmax u (List.mem_cons_of_mem _ hu) (by rwa [opened_idx (hneo u hu), opened_idx hxw])
      rwa [opened_idx (hneo u hu), opened_idx hvw] at this
    have hlow : (s.opened fs w).lowlink v = s.lowlink v := by simp [opened, hvw]
    rw [hlow]
    by_cases hyw : y = w
    · obtain ⟨z, hz, hzl, -, -⟩ := h.link v hv'
      rw [hyw, opened_idx_self, ← hzl]
      exact (h.stack_idx_lt hz).le
    · rw [opened_idx hyw]
      have hs := (hsc x y hxy hxw).resolve_right hyw
      exact h.bound v x hx' hown' y ((List.mem_cons.1 hy).resolve_left hyw) hs

theorem inv_root (h : Inv adj n s) (hf : s.frames = []) (hw : ¬ s.Visited w) (hwn : w < n) :
    Inv adj n ((s.enter w).pushFrame w) := by
  have hopen : s.openNodes = [] := by simp [openNodes, hf]
  have he : (s.enter w).pushFrame w = s.opened [] w := by simp [pushFrame, enter, opened, hf]
  rw [he]
  refine inv_open h hw hwn (by simp [hopen]) (fun x y hxy hxw => .inl ⟨hxy.1, by simp [hf]⟩) (by simp [hopen])

theorem inv_descend {v cursor : Nat} {rest : List TarjanFrame} (h : Inv adj n s)
    (hf : s.frames = ⟨v, cursor⟩ :: rest) (hc : (neighbors adj v)[cursor]? = some w)
    (hw : ¬ s.Visited w) (hwn : w < n) : Inv adj n ((s.setCursor (cursor + 1)).descend w) := by
  have he : (s.setCursor (cursor + 1)).descend w = s.opened (⟨v, cursor + 1⟩ :: rest) w := by
    simp [descend, pushFrame, enter, setCursor, opened, hf]
  rw [he]
  have hv : v ∈ s.openNodes := by simp [openNodes, hf]
  refine inv_open h hw hwn (by simp [openNodes, hf]) (fun x y hxy hxw => ?_) (fun u hu => ?_)
  · have hadv : Scanned adj { s with frames := ⟨v, cursor + 1⟩ :: rest } x y :=
      ⟨hxy.1, fun f hfm hfx => hxy.2 f (List.mem_cons_of_mem _ hfm) hfx⟩
    exact (scanned_advance hf rfl hc hadv).imp id And.right
  · have huv : s.idx u ≤ s.idx v := by
      rw [openNodes, hf] at hu
      rcases List.mem_cons.1 hu with rfl | hu
      · exact le_refl _
      · have hs := h.open_sorted
        rw [openNodes, hf] at hs
        exact ((List.pairwise_cons.1 hs).1 u hu).le
    exact (h.below u hu v (h.open_stack v hv) huv).tail (List.mem_of_getElem? hc)

end Open

/-! ## Closing a node -/

section Finish
variable {v cursor : Nat} {rest : List TarjanFrame}

/-- `pop_scc` takes the stack off down to its root. -/
theorem popUntil_spec {root : Nat} (below : List Nat) :
    ∀ (seg : List Nat) (onStack : Nat → Bool) (scc : List Nat), root ∉ seg →
      ∃ onStack', popUntil root (seg ++ root :: below) onStack scc =
          some (below, onStack', scc ++ (seg ++ [root])) ∧
        ∀ x, onStack' x = if x ∈ seg ++ [root] then false else onStack x := by
  intro seg
  induction seg with
  | nil =>
    intro onStack scc _
    refine ⟨_, by simp [popUntil]; rfl, fun x => ?_⟩
    by_cases hx : x = root <;> simp [hx]
  | cons w seg ih =>
    intro onStack scc hroot
    have hw : w ≠ root := fun he => hroot (he ▸ List.mem_cons_self)
    obtain ⟨on', he, hon⟩ := ih (Function.update onStack w false) (scc ++ [w])
      (fun hm => hroot (List.mem_cons_of_mem _ hm))
    refine ⟨on', by simp [popUntil, hw, he], fun x => ?_⟩
    rw [hon x]
    by_cases hx : x = w
    · subst hx; simp
    · by_cases hs : x ∈ seg ++ [root]
      · rw [if_pos hs, if_pos (by simp at hs ⊢; tauto)]
      · rw [if_neg hs, if_neg (by simp at hs ⊢; tauto), Function.update_of_ne hx]

theorem Inv.stack_split (h : Inv adj n s) {v : Nat} (hv : v ∈ s.stack) :
    ∃ seg below, s.stack = seg ++ v :: below ∧ (∀ x ∈ seg, s.idx v < s.idx x) ∧
      ∀ x ∈ below, s.idx x < s.idx v := by
  obtain ⟨seg, below, he⟩ := List.append_of_mem hv
  have hs := h.stack_sorted
  rw [he, List.pairwise_append, List.pairwise_cons] at hs
  exact ⟨seg, below, he, fun x hx => hs.2.2 x hx v List.mem_cons_self, hs.2.1.1⟩

theorem scanned_of_rest (hf : s.frames = ⟨v, cursor⟩ :: rest) (hc : (neighbors adj v).length ≤ cursor)
    {x y : Nat} (hy : y ∈ neighbors adj x)
    (hall : ∀ f ∈ rest, f.node = x → y ∈ (neighbors adj x).take f.cursor) : Scanned adj s x y := by
  refine ⟨hy, fun f hfm hfx => ?_⟩
  rw [hf] at hfm
  rcases List.mem_cons.1 hfm with rfl | hfm
  · simp only at hfx; subst hfx
    rwa [List.take_of_length_le hc]
  · exact hall f hfm hfx

theorem Inv.rest_lt (h : Inv adj n s) (hf : s.frames = ⟨v, cursor⟩ :: rest) {u : Nat}
    (hu : u ∈ rest.map (·.node)) : s.idx u < s.idx v := by
  have hs := h.open_sorted
  rw [openNodes, hf] at hs
  exact (List.pairwise_cons.1 hs).1 u hu

theorem openNodes_cons (hf : s.frames = ⟨v, cursor⟩ :: rest) : s.openNodes = v :: rest.map (·.node) := by
  simp [openNodes, hf]

/-- Closing a node whose lowlink is below it: its part of the stack now
belongs to its parent, whose lowlink goes down to its own. -/
theorem inv_close_open (h : Inv adj n s) (hf : s.frames = ⟨v, cursor⟩ :: rest)
    (hc : (neighbors adj v).length ≤ cursor) (hlow : s.lowlink v ≠ s.idx v) :
    Inv adj n ({ s with frames := rest }.propagate v) := by
  have hcons := openNodes_cons hf
  have hv : v ∈ s.openNodes := by simp [hcons]
  obtain ⟨y₀, hy₀, hl₀, hle₀, hr₀⟩ := h.link v hv
  have hlt₀ : s.idx y₀ < s.idx v := lt_of_le_of_ne hle₀ (hl₀ ▸ hlow)
  -- the node `v` reaches lies above an open node other than `v`
  obtain ⟨u₀, hu₀, hule₀, hur₀⟩ := h.above y₀ hy₀
  have hu₀' : u₀ ∈ rest.map (·.node) := by
    rw [hcons] at hu₀
    exact (List.mem_cons.1 hu₀).resolve_left (by rintro rfl; omega)
  obtain ⟨⟨p, pc⟩, rest', rfl⟩ : ∃ p rest', rest = p :: rest' :=
    List.exists_cons_of_ne_nil (by rintro rfl; simp at hu₀')
  simp only [propagate, lowerLink]
  have hp : p ∈ s.openNodes := by simp [hcons]
  have hpv : s.idx p < s.idx v := h.rest_lt hf (by simp)
  have hptop : ∀ u ∈ (⟨p, pc⟩ :: rest').map (·.node), s.idx u ≤ s.idx p := by
    intro u hu
    have hs := h.open_sorted
    rw [hcons] at hs
    rcases List.mem_cons.1 hu with rfl | hu
    · exact le_refl _
    · exact ((List.pairwise_cons.1 (List.pairwise_cons.1 hs).2).1 u hu).le
  set L : Nat → Nat := Function.update s.lowlink p (min (s.lowlink p) (s.lowlink v)) with hL
  have hLle : ∀ u, L u ≤ s.lowlink u := by
    intro u
    by_cases hup : u = p
    · subst hup; simp [hL]
    · simp [hL, hup]
  have hsub : ∀ u ∈ (⟨p, pc⟩ :: rest').map (·.node), u ∈ s.openNodes := fun u hu => by
    rw [hcons]; exact List.mem_cons_of_mem _ hu
  refine ⟨h.index_lt, h.count, h.stack_sorted, h.stack_visited, h.on_stack, ?_, ?_, ?_, h.emitted,
    h.order, ?_, ?_, ?_, ?_⟩
  · have hs := h.open_sorted
    rw [hcons] at hs
    exact (List.pairwise_cons.1 hs).2
  · exact fun u hu => h.open_stack u (hsub u hu)
  · exact fun x y hx hxy => h.scanned x y hx (scanned_of_rest hf hc hxy.1 hxy.2)
  · exact fun u hu x hx hle => h.below u (hsub u hu) x hx hle
  · intro x hx
    obtain ⟨u, hu, hle, hr⟩ := h.above x hx
    rw [hcons] at hu
    rcases List.mem_cons.1 hu with rfl | hu
    · have hle' : s.idx u₀ ≤ s.idx x := by omega
      exact ⟨u₀, hu₀', hle', hr.trans (hr₀.trans hur₀)⟩
    · exact ⟨u, hu, hle, hr⟩
  · intro u hu
    obtain ⟨y, hy, hl, hle, hr⟩ := h.link u (hsub u hu)
    by_cases hlow' : L u = s.lowlink u
    · exact ⟨y, hy, hl.trans hlow'.symm, hle, hr⟩
    · obtain rfl : u = p := by
        by_contra hup
        exact hlow' (by simp [hL, hup])
      have hLu : L u = s.lowlink v := by
        simp only [hL, Function.update_self] at hlow' ⊢; omega
      have hvu : Reaches (Edge adj) u v := h.below u hp v (h.open_stack v hv) hpv.le
      have hle' : s.idx y₀ ≤ s.idx u := by have := hLle u; omega
      exact ⟨y₀, hy₀, hl₀.trans hLu.symm, hle', hvu.trans hr₀⟩
  · rintro u x hx ⟨hu, hle, hmax⟩ y hy hxy
    have hs := scanned_of_rest hf hc hxy.1 hxy.2
    have hle' : s.idx u ≤ s.idx x := hle
    have hmax' : ∀ w ∈ (⟨p, pc⟩ :: rest').map (·.node), s.idx w ≤ s.idx x → s.idx w ≤ s.idx u := hmax
    by_cases hvx : s.idx v ≤ s.idx x
    · -- `x` was owned by `v`, and is now owned by its parent
      have hup : u = p :=
        h.stack_inj (h.open_stack u (hsub u hu)) (h.open_stack p hp)
          (le_antisymm (hptop u hu) (hmax' p (by simp) (by omega)))
      have hown : s.Owner v x := by
        refine ⟨hv, hvx, fun w hw _ => ?_⟩
        rw [hcons] at hw
        rcases List.mem_cons.1 hw with rfl | hw
        · exact le_refl _
        · exact (h.rest_lt hf hw).le
      have hb := h.bound v x hx hown y hy hs
      have hLv : L u ≤ s.lowlink v := by subst hup; simp [hL]
      exact hLv.trans hb
    · have hown : s.Owner u x := by
        refine ⟨hsub u hu, hle', fun w hw hwx => ?_⟩
        rw [hcons] at hw
        rcases List.mem_cons.1 hw with rfl | hw
        · exact absurd hwx hvx
        · exact hmax' w hw hwx
      exact (hLle u).trans (h.bound u x hx hown y hy hs)

/-- A node whose lowlink is its own index closes a component: itself and
everything above it on the stack. -/
theorem Inv.component (h : Inv adj n s) (hf : s.frames = ⟨v, cursor⟩ :: rest)
    (hc : (neighbors adj v).length ≤ cursor) (hlow : s.lowlink v = s.idx v) {seg below : List Nat}
    (hst : s.stack = seg ++ v :: below) (hseg : ∀ x ∈ seg, s.idx v < s.idx x)
    (hbelow : ∀ x ∈ below, s.idx x < s.idx v) : ComponentOrder (Edge adj) (s.sccs ++ [seg ++ [v]]) := by
  have hcons := openNodes_cons hf
  have hv : v ∈ s.openNodes := by simp [hcons]
  have hvs := h.open_stack v hv
  have htop : ∀ u ∈ s.openNodes, s.idx u ≤ s.idx v := by
    intro u hu
    rw [hcons] at hu
    rcases List.mem_cons.1 hu with rfl | hu
    · exact le_refl _
    · exact (h.rest_lt hf hu).le
  have hmem : ∀ {x}, x ∈ seg ++ [v] → x ∈ s.stack ∧ s.idx v ≤ s.idx x := by
    intro x hx
    rcases List.mem_append.1 hx with hx | hx
    · exact ⟨by simp [hst, hx], (hseg x hx).le⟩
    · obtain rfl := List.mem_singleton.1 hx
      exact ⟨hvs, le_refl _⟩
  have hnd : s.stack.Nodup := h.stack_sorted.imp fun {a b} hab he => by subst he; omega
  refine h.order.snoc (by simp) ?_ ?_ ?_ ?_
  · rw [hst] at hnd
    refine hnd.sublist ?_
    exact List.Sublist.append_left (List.Sublist.cons_cons v (List.nil_sublist _)) seg
  · exact fun x hx hm => ((h.emitted x).1 hm).2 (hmem hx).1
  · -- every node of the segment reaches `v`, through the open node below it
    intro x hx y hy
    obtain ⟨u, hu, -, hr⟩ := h.above x (hmem hx).1
    have huv : Reaches (Edge adj) u v := h.below u hu v hvs (htop u hu)
    exact (hr.trans huv).trans (h.below v hv y (hmem hy).1 (hmem hy).2)
  · intro x hx y hxy
    obtain ⟨hxs, hle⟩ := hmem hx
    have hsc : Scanned adj s x y := by
      refine scanned_of_rest hf hc hxy fun f hfm hfx => ?_
      have := h.rest_lt hf (List.mem_map_of_mem hfm)
      rw [hfx] at this
      omega
    by_cases hy : y ∈ s.stack
    · left
      have hb := h.bound v x hxs ⟨hv, hle, fun u hu _ => htop u hu⟩ y hy hsc
      rw [hst, List.mem_append, List.mem_cons] at hy
      rw [List.mem_append, List.mem_singleton]
      rcases hy with hy | hy | hy
      · exact .inl hy
      · exact .inr hy
      · exact absurd (hbelow y hy) (by omega)
    · exact .inr ((h.emitted y).2 ⟨h.scanned x y (h.stack_visited x hxs) hsc, hy⟩)

theorem inv_close_root (h : Inv adj n s) (hf : s.frames = ⟨v, cursor⟩ :: rest)
    (hc : (neighbors adj v).length ≤ cursor) (hlow : s.lowlink v = s.idx v) :
    ∃ t, popScc { s with frames := rest } v = some t ∧ t.frames = rest ∧ t.index = s.index ∧
      t.indexCounter = s.indexCounter ∧ Inv adj n (t.propagate v) := by
  have hcons := openNodes_cons hf
  have hv : v ∈ s.openNodes := by simp [hcons]
  obtain ⟨seg, below, hst, hseg, hbelow⟩ := h.stack_split (h.open_stack v hv)
  obtain ⟨on', hpop, hon⟩ := popUntil_spec below seg s.onStack []
    (fun hm => absurd (hseg v hm) (Nat.lt_irrefl _))
  rw [← hst, List.nil_append] at hpop
  refine ⟨{ s with frames := rest, stack := below, onStack := on', sccs := s.sccs ++ [seg ++ [v]] },
    by simp [popScc, hpop], rfl, rfl, rfl, ?_⟩
  have hsub : ∀ u ∈ rest.map (·.node), u ∈ s.openNodes := fun u hu => by
    rw [hcons]; exact List.mem_cons_of_mem _ hu
  have hbs : ∀ x ∈ below, x ∈ s.stack := fun x hx => by simp [hst, hx]
  have hin : ∀ x ∈ s.stack, s.idx x < s.idx v → x ∈ below := by
    intro x hx hlt
    rw [hst, List.mem_append, List.mem_cons] at hx
    rcases hx with hx | rfl | hx
    · exact absurd (hseg x hx) (by omega)
    · omega
    · exact hx
  have hout : ∀ x ∈ seg ++ [v], x ∉ below := by
    intro x hx hxb
    have := hbelow x hxb
    rcases List.mem_append.1 hx with hx | hx
    · exact absurd (hseg x hx) (by omega)
    · obtain rfl := List.mem_singleton.1 hx
      omega
  -- the parent's lowlink is below `v`, so folding `v`'s into it changes nothing
  have hprop : ∀ t : TarjanState, t.frames = rest → t.lowlink = s.lowlink → t.propagate v = t := by
    intro t ht hl
    unfold propagate
    rw [ht]
    rcases rest with _ | ⟨⟨p, pc⟩, rest'⟩
    · rfl
    · obtain ⟨y, -, hyl, hyp, -⟩ := h.link p (hsub p (by simp))
      have hpv : s.idx p < s.idx v := h.rest_lt hf (by simp)
      have hmin : min (t.lowlink p) (t.lowlink v) = t.lowlink p := by
        rw [hl, hlow]; omega
      simp [lowerLink, hmin]
  rw [hprop { s with frames := rest, stack := below, onStack := on', sccs := s.sccs ++ [seg ++ [v]] } rfl rfl]
  have hsort := h.open_sorted
  rw [hcons] at hsort
  refine ⟨h.index_lt, h.count, ?_, ?_, ?_, (List.pairwise_cons.1 hsort).2, ?_, ?_, ?_, ?_, ?_, ?_, ?_, ?_⟩
  · have hs := h.stack_sorted
    rw [hst, List.pairwise_append, List.pairwise_cons] at hs
    exact hs.2.1.2
  · exact fun x hx => h.stack_visited x (hbs x hx)
  · intro x
    show on' x = true ↔ x ∈ below
    rw [hon x]
    by_cases hx : x ∈ seg ++ [v]
    · simp only [if_pos hx, Bool.false_eq_true, false_iff]
      exact hout x hx
    · rw [if_neg hx, h.on_stack x, hst]
      simp only [List.mem_append, List.mem_cons, List.not_mem_nil, or_false, not_or] at hx ⊢
      exact ⟨fun hm => (hm.resolve_left hx.1).resolve_left hx.2, fun hm => .inr (.inr hm)⟩
  · exact fun u hu => hin u (h.open_stack u (hsub u hu)) (h.rest_lt hf hu)
  · exact fun x y hx hxy => h.scanned x y hx (scanned_of_rest hf hc hxy.1 hxy.2)
  · intro x
    show x ∈ (s.sccs ++ [seg ++ [v]]).flatten ↔ s.Visited x ∧ x ∉ below
    rw [List.flatten_append, List.mem_append, h.emitted x]
    simp only [List.flatten_cons, List.flatten_nil, List.append_nil]
    constructor
    · rintro (⟨hx, hxs⟩ | hx)
      · exact ⟨hx, fun hm => hxs (hbs x hm)⟩
      · refine ⟨h.stack_visited x ?_, hout x hx⟩
        simp only [hst, List.mem_append, List.mem_cons] at hx ⊢
        tauto
    · rintro ⟨hx, hxb⟩
      by_cases hxs : x ∈ s.stack
      · right
        simp only [hst, List.mem_append, List.mem_cons] at hxs ⊢
        tauto
      · exact .inl ⟨hx, hxs⟩
  · exact h.component hf hc hlow hst hseg hbelow
  · exact fun u hu x hx hle => h.below u (hsub u hu) x (hbs x hx) hle
  · intro x hx
    obtain ⟨u, hu, hle, hr⟩ := h.above x (hbs x hx)
    rw [hcons] at hu
    rcases List.mem_cons.1 hu with rfl | hu
    · exact absurd (hbelow x hx) (by omega)
    · exact ⟨u, hu, hle, hr⟩
  · intro u hu
    obtain ⟨y, hy, hl, hle, hr⟩ := h.link u (hsub u hu)
    exact ⟨y, hin y hy (lt_of_le_of_lt hle (h.rest_lt hf hu)), hl, hle, hr⟩
  · rintro u x hx ⟨hu, hle, hmax⟩ y hy hxy
    refine h.bound u x (hbs x hx) ⟨hsub u hu, hle, fun w hw hwx => ?_⟩ y (hbs y hy)
      (scanned_of_rest hf hc hxy.1 hxy.2)
    rw [hcons] at hw
    rcases List.mem_cons.1 hw with rfl | hw
    · exact absurd (hbelow x hx) (by omega)
    · exact hmax w hw hwx

theorem inv_finish (h : Inv adj n s) (hf : s.frames = ⟨v, cursor⟩ :: rest)
    (hc : (neighbors adj v).length ≤ cursor) :
    ∃ t, s.finishNode v = some t ∧ t.frames = rest ∧ t.index = s.index ∧
      t.indexCounter = s.indexCounter ∧ Inv adj n t := by
  have hv : v ∈ s.openNodes := by simp [openNodes_cons hf]
  obtain ⟨i, hi⟩ := Option.isSome_iff_exists.1 (h.stack_visited v (h.open_stack v hv))
  have hvi : s.idx v = i := idx_of_index hi
  have hprop : ∀ t : TarjanState, (t.propagate v).frames = t.frames ∧ (t.propagate v).index = t.index ∧
      (t.propagate v).indexCounter = t.indexCounter := by
    intro t
    unfold propagate
    split <;> simp [lowerLink]
  by_cases hlow : s.lowlink v = s.idx v
  · obtain ⟨t, ht, htf, hti, htc, hinv⟩ := inv_close_root h hf hc hlow
    refine ⟨t.propagate v, ?_, (hprop t).1.trans htf, (hprop t).2.1.trans hti, (hprop t).2.2.trans htc, hinv⟩
    simp [finishNode, hf, hi, hvi ▸ hlow, ht]
  · refine ⟨({ s with frames := rest } : TarjanState).propagate v, ?_, (hprop _).1, (hprop _).2.1,
      (hprop _).2.2, inv_close_open h hf hc hlow⟩
    have hne : s.lowlink v ≠ i := hvi ▸ hlow
    simp [finishNode, hf, hi, hne]

end Finish

/-! ## Runs of the search -/

theorem scanNeighbors_spec {v : Nat} {rest : List TarjanFrame} (ws : List Nat) :
    ∀ (s : TarjanState) (cursor : Nat), Inv adj n s → s.frames = ⟨v, cursor⟩ :: rest →
      ws = (neighbors adj v).drop cursor →
      ∃ t cursor', Inv adj n t ∧ t.frames = ⟨v, cursor'⟩ :: rest ∧ t.index = s.index ∧
        t.indexCounter = s.indexCounter ∧
        ((s.scanNeighbors v ws cursor = (t, none) ∧ (neighbors adj v).length ≤ cursor') ∨
          ∃ w, s.scanNeighbors v ws cursor = (t.setCursor (cursor' + 1), some w) ∧
            (neighbors adj v)[cursor']? = some w ∧ ¬ t.Visited w) := by
  induction ws with
  | nil =>
    intro s cursor h hf hd
    have hself : s.setCursor cursor = s := by cases s; simp_all [setCursor]
    exact ⟨s, cursor, h, hf, rfl, rfl, .inl ⟨by simp [scanNeighbors, hself], List.drop_eq_nil_iff.1 hd.symm⟩⟩
  | cons w ws ih =>
    intro s cursor h hf hd
    have hw : (neighbors adj v)[cursor]? = some w := by
      have := congrArg List.head? hd
      simpa [List.head?_drop] using this.symm
    have hd' : ws = (neighbors adj v).drop (cursor + 1) := by
      have := congrArg List.tail hd
      simpa [List.tail_drop] using this
    cases hi : s.index w with
    | none =>
      exact ⟨s, cursor, h, hf, rfl, rfl, .inr ⟨w, by simp [scanNeighbors, hi], hw, by simp [Visited, hi]⟩⟩
    | some i =>
      have hinv := inv_scan h hf hw hi
      have heq := scanOne_eq (w := w) (i := i) hf
      obtain ⟨t, c', ht, htf, hti, htc, hres⟩ := ih (scanOne s v w i cursor) (cursor + 1) hinv (by rw [heq]) hd'
      refine ⟨t, c', ht, htf, by rw [hti, heq], by rw [htc, heq], ?_⟩
      -- the cursor is written back once, at the end of the scan
      have hset : ∀ (u : TarjanState) (c : Nat) (us : List Nat) (d : Nat),
          (u.setCursor c).scanNeighbors v us d = u.scanNeighbors v us d := by
        intro u c us
        induction us generalizing u with
        | nil => intro d; cases hu : u.frames <;> simp [scanNeighbors, setCursor, hu]
        | cons x xs ihx =>
          intro d
          have hidx : (u.setCursor c).index = u.index := by
            cases hu : u.frames <;> simp [setCursor, hu]
          have hon : (u.setCursor c).onStack = u.onStack := by
            cases hu : u.frames <;> simp [setCursor, hu]
          simp only [scanNeighbors, hidx, hon]
          cases hx : u.index x with
          | none => cases hu : u.frames <;> simp [setCursor, hu]
          | some j =>
            have hlower : (u.setCursor c).lowerLink v j = (u.lowerLink v j).setCursor c := by
              cases hu : u.frames <;> simp [setCursor, lowerLink, hu]
            by_cases ho : u.onStack x = true
            · simp only [ho, if_true, hlower]
              exact ihx _ _
            · simp only [ho]
              exact ihx _ _
      have hstep : s.scanNeighbors v (w :: ws) cursor =
          (scanOne s v w i cursor).scanNeighbors v ws (cursor + 1) := by
        simp only [scanNeighbors, hi, scanOne, hset]
      rw [hstep]
      exact hres

/-- A turn of the loop opens a node of `0..n` or closes one. -/
theorem strongconnectStep_spec (hadj : ∀ x, ∀ y ∈ neighbors adj x, y < n) (h : Inv adj n s) :
    (∃ t, strongconnectStep adj s = some (.next t) ∧ Inv adj n t ∧ (∀ x, s.Visited x → t.Visited x) ∧
      2 * (n - t.indexCounter) + t.frames.length < 2 * (n - s.indexCounter) + s.frames.length) ∨
    (strongconnectStep adj s = some (.done s) ∧ s.frames = []) := by
  cases hf : s.frames with
  | nil => exact .inr ⟨by simp [strongconnectStep, hf], rfl⟩
  | cons frame rest =>
    obtain ⟨v, cursor⟩ := frame
    left
    obtain ⟨t, c', ht, htf, hti, htc, hres⟩ := scanNeighbors_spec _ s cursor h hf rfl
    rcases hres with ⟨heq, hlen⟩ | ⟨w, heq, hw, hnv⟩
    · obtain ⟨t', ht', htf', hti', htc', hinv⟩ := inv_finish ht htf hlen
      refine ⟨t', by simp [strongconnectStep, hf, nextChild, heq, ht'], hinv, fun x hx => ?_, ?_⟩
      · rwa [Visited, hti', hti]
      · rw [htc', htc, htf']
        simp
    · have hwn : w < n := hadj v w (List.mem_of_getElem? hw)
      have hlt : t.indexCounter < n := by
        rw [← ht.count]
        calc ((Finset.range n).filter t.Visited).card
            < (Finset.range n).card := Finset.card_lt_card (Finset.filter_ssubset.2 ⟨w, by simpa, hnv⟩)
          _ = n := Finset.card_range n
      refine ⟨_, by simp only [strongconnectStep, hf, nextChild, heq], inv_descend ht htf hw hnv hwn,
        fun x hx => ?_, ?_⟩
      · have hxt : t.Visited x := by rwa [Visited, hti]
        by_cases hxw : x = w <;> simp_all [Visited, descend, pushFrame, enter, setCursor]
      · simp only [descend, pushFrame, enter, setCursor, htf, List.length_cons]
        omega

theorem strongconnect_spec (hadj : ∀ x, ∀ y ∈ neighbors adj x, y < n) (h : Inv adj n s)
    (hf : s.frames = []) {root : Nat} (hr : ¬ s.Visited root) (hrn : root < n) :
    ∃ t, s.strongconnect n adj root = some t ∧ Inv adj n t ∧ t.frames = [] ∧
      (∀ x, s.Visited x → t.Visited x) ∧ t.Visited root := by
  set s₀ := (s.enter root).pushFrame root with hs₀
  have hvis : ∀ x, s.Visited x ∨ x = root → s₀.Visited x := by
    intro x hx
    by_cases hxr : x = root
    · simp [hs₀, Visited, pushFrame, enter, hxr]
    · simpa [hs₀, Visited, pushFrame, enter, hxr] using hx
  obtain ⟨t, ht, hinv, htf, hmono⟩ := loop_spec (strongconnectStep adj)
    (fun u => Inv adj n u ∧ ∀ x, s₀.Visited x → u.Visited x)
    (fun u => 2 * (n - u.indexCounter) + u.frames.length)
    (fun u => Inv adj n u ∧ u.frames = [] ∧ ∀ x, s₀.Visited x → u.Visited x)
    (fun u hu => by
      rcases strongconnectStep_spec hadj hu.1 with ⟨t, ht, hinv, hmono, hlt⟩ | ⟨ht, htf⟩
      · exact .inl ⟨t, ht, ⟨hinv, fun x hx => hmono x (hu.2 x hx)⟩, hlt⟩
      · exact .inr ⟨u, ht, hu.1, htf, hu.2⟩)
    (2 * n + 2) s₀ ⟨inv_root h hf hr hrn, fun _ hx => hx⟩ (by
      simp only [hs₀, pushFrame, enter, hf, List.length_cons, List.length_nil]
      omega)
  exact ⟨t, ht, hinv, htf, fun x hx => hmono x (hvis x (.inl hx)), hmono root (hvis root (.inr rfl))⟩

end TarjanState

open TarjanState in
/-- The search ends, and returns the components of the graph on `0..n` in an
order in which every edge goes to the same or to an earlier component. -/
theorem tarjanScc_spec {n : Nat} {adj : List (List Nat)} (hadj : ∀ x, ∀ y ∈ neighbors adj x, y < n) :
    ∃ sccs, tarjanScc n adj = some sccs ∧ ComponentOrder (Edge adj) sccs ∧
      ∀ x, x ∈ sccs.flatten ↔ x < n := by
  have key : ∀ (vs : List Nat) (s : TarjanState), (∀ v ∈ vs, v < n) → Inv adj n s → s.frames = [] →
      ∃ t, vs.foldlM (fun s v => if (s.index v).isNone then s.strongconnect n adj v else some s) s = some t ∧
        Inv adj n t ∧ t.frames = [] ∧ (∀ x, s.Visited x → t.Visited x) ∧ ∀ v ∈ vs, t.Visited v := by
    intro vs
    induction vs with
    | nil => exact fun s _ h hf => ⟨s, rfl, h, hf, fun _ hx => hx, by simp⟩
    | cons v vs ih =>
      intro s hvs h hf
      have hvn := hvs v (by simp)
      obtain ⟨t, ht, hinv, htf, hmono, hv⟩ : ∃ t, (if (s.index v).isNone then s.strongconnect n adj v
          else some s) = some t ∧ Inv adj n t ∧ t.frames = [] ∧ (∀ x, s.Visited x → t.Visited x) ∧
          t.Visited v := by
        by_cases hv : s.Visited v
        · refine ⟨s, ?_, h, hf, fun _ hx => hx, hv⟩
          rw [if_neg (by simpa [Visited, Option.isSome_iff_ne_none] using hv)]
        · obtain ⟨t, ht, hres⟩ := strongconnect_spec hadj h hf hv hvn
          refine ⟨t, ?_, hres⟩
          rw [if_pos (by simpa [Visited] using hv), ht]
      obtain ⟨u, hu, hinv', huf, hmono', hall⟩ := ih t (fun w hw => hvs w (by simp [hw])) hinv htf
      refine ⟨u, by rw [List.foldlM_cons, ht]; exact hu, hinv', huf, fun x hx => hmono' x (hmono x hx), ?_⟩
      intro w hw
      rcases List.mem_cons.1 hw with rfl | hw
      · exact hmono' w hv
      · exact hall w hw
  obtain ⟨t, ht, hinv, htf, -, hall⟩ := key (List.range n) .new (fun v hv => List.mem_range.1 hv) inv_new rfl
  refine ⟨t.sccs, by rw [tarjanScc, ht]; rfl, hinv.order, fun x => ?_⟩
  rw [hinv.emitted, hinv.stack_nil htf]
  constructor
  · rintro ⟨hx, -⟩
    obtain ⟨i, hi⟩ := Option.isSome_iff_exists.1 hx
    exact (hinv.index_lt x i hi).1
  · exact fun hx => ⟨hall x (List.mem_range.2 hx), by simp⟩

end Rumoca.Structural
