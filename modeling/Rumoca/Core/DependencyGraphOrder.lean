import Rumoca.Core.DependencyGraph
import Rumoca.Lib.FinishOrder
/-!
# What the two walks return

`finishOrder_spec`: the first walk lists every node once, in a finishing order
of the dependencies. `collectComponent_spec`: a search of the reversed edges
returns what reaches its start and was not seen. `dependencyFirstSccs_spec`
puts them together: the components of the graph, dependencies first.
-/

namespace Rumoca.Core

open Rumoca.Lib

/-- The dependencies of `x`; a node without a list has none. -/
def targetsOf (edges : List (List Nat)) (x : Nat) : List Nat := (edges[x]?).getD []

/-- `x` depends on `y`. -/
def Depends (edges : List (List Nat)) (x y : Nat) : Prop := y ∈ targetsOf edges x

def InRange (edges : List (List Nat)) : Prop := ∀ targets ∈ edges, ∀ target ∈ targets, target < edges.length

variable {edges : List (List Nat)}

theorem targetsOf_eq {x : Nat} (hx : x < edges.length) : edges[x]? = some (targetsOf edges x) := by
  rw [targetsOf, List.getElem?_eq_getElem hx]
  rfl

theorem InRange.lt (h : InRange edges) {x y : Nat} (he : Depends edges x y) : y < edges.length := by
  unfold Depends targetsOf at he
  cases hx : edges[x]? with
  | none => simp [hx] at he
  | some targets =>
    rw [hx] at he
    exact h targets (List.mem_of_getElem? hx) y he

theorem Depends.lt {x y : Nat} (he : Depends edges x y) : x < edges.length := by
  by_contra hx
  rw [Depends, targetsOf, List.getElem?_eq_none (Nat.le_of_not_lt hx)] at he
  cases he

/-! ## The targets -/

theorem badTarget_eq_none {nodeCount : Nat} {rows : List (List Nat)} {source : Nat}
    (h : ∀ targets ∈ rows, ∀ target ∈ targets, target < nodeCount) : badTarget nodeCount rows source = none := by
  induction rows generalizing source with
  | nil => rfl
  | cons targets rest ih =>
    have hnone : targets.find? (nodeCount ≤ ·) = none :=
      List.find?_eq_none.2 fun target ht => by
        have := h targets (by simp) target ht
        simpa using this
    rw [badTarget, hnone]
    exact ih fun targets' ht => h targets' (by simp [ht])

theorem InRange.checkTargets (h : InRange edges) : checkTargets edges = .ok () := by
  rw [Core.checkTargets, badTarget_eq_none h]

/-! ## The finishing walk -/

namespace FinishState

def openNodes (s : FinishState) : List Nat := s.stack.map Prod.fst

structure Inv (edges : List (List Nat)) (s : FinishState) : Prop where
  search : DepthFirst (Depends edges) s.finished s.openNodes
  seen : ∀ x, s.seen x = true ↔ x ∈ s.finished ++ s.openNodes
  bound : ∀ x, s.seen x = true → x < edges.length
  scanned : ∀ frame ∈ s.stack, ∀ y ∈ (targetsOf edges frame.1).take frame.2, s.seen y = true

def weight (edges : List (List Nat)) (s : FinishState) : Nat :=
  (∑ x ∈ Finset.range edges.length, if s.seen x then 0 else (targetsOf edges x).length + 1) +
    (s.stack.map fun frame => (targetsOf edges frame.1).length - frame.2 + 1).sum

end FinishState

theorem sum_unseen {seen : Nat → Bool} {next : Nat} (hn : next < edges.length) (hs : seen next = false) :
    (∑ x ∈ Finset.range edges.length, if seen x then 0 else (targetsOf edges x).length + 1) =
      (∑ x ∈ Finset.range edges.length,
        if Function.update seen next true x then 0 else (targetsOf edges x).length + 1) +
        ((targetsOf edges next).length + 1) := by
  have hmem : next ∈ Finset.range edges.length := Finset.mem_range.2 hn
  rw [← Finset.add_sum_erase _ _ hmem, ← Finset.add_sum_erase (Finset.range edges.length) _ hmem]
  simp only [hs, Function.update_self, if_true, Bool.false_eq_true, if_false]
  have hrest : ∀ x ∈ (Finset.range edges.length).erase next,
      (if Function.update seen next true x then 0 else (targetsOf edges x).length + 1) =
        if seen x then 0 else (targetsOf edges x).length + 1 := by
    intro x hx
    rw [Function.update_of_ne (Finset.ne_of_mem_erase hx)]
  rw [Finset.sum_congr rfl hrest]
  omega

theorem FinishState.Inv.enter {s : FinishState} (h : s.Inv edges) {next : Nat} (hn : next < edges.length)
    (hs : s.seen next = false) (hedge : ∀ top ∈ s.openNodes.head?, Depends edges top next) :
    FinishState.Inv edges { s with seen := Function.update s.seen next true, stack := (next, 0) :: s.stack } where
  search := h.search.push (fun hmem => by rw [(h.seen next).2 hmem] at hs; cases hs) hedge
  seen x := by
    have hopen : FinishState.openNodes
        { s with seen := Function.update s.seen next true, stack := (next, 0) :: s.stack } = next :: s.openNodes := rfl
    rw [hopen]
    by_cases hx : x = next
    · subst hx
      simp
    · simp only [Function.update_of_ne hx, h.seen x, List.mem_append, List.mem_cons, hx, false_or]
  bound x hx := by
    by_cases hxn : x = next
    · exact hxn ▸ hn
    · simp only [Function.update_of_ne hxn] at hx
      exact h.bound x hx
  scanned frame hframe y hy := by
    rcases List.mem_cons.1 hframe with rfl | hframe
    · cases hy
    · by_cases hyn : y = next
      · simp [hyn]
      · simp only [Function.update_of_ne hyn]
        exact h.scanned frame hframe y hy

/-- A turn follows an edge or finishes a node, and the walk stops with an empty stack. -/
theorem finishTurn_spec (hin : InRange edges) {s : FinishState} (h : s.Inv edges) :
    (∃ s', finishTurn edges s = some (.next s') ∧ (s'.Inv edges ∧ ∀ x, s.seen x = true → s'.seen x = true) ∧
      s'.weight edges < s.weight edges) ∨
    (finishTurn edges s = some (.done s) ∧ s.stack = []) := by
  obtain ⟨seen, stack, finished⟩ := s
  cases stack with
  | nil => exact .inr ⟨rfl, rfl⟩
  | cons frame below =>
    obtain ⟨node, nextEdge⟩ := frame
    have hnode : node < edges.length := h.bound node ((h.seen node).2 (by simp [FinishState.openNodes]))
    left
    cases hnext : (targetsOf edges node)[nextEdge]? with
    | some next =>
      have hlt : nextEdge < (targetsOf edges node).length := (List.getElem?_eq_some_iff.1 hnext).1
      have hedge : Depends edges node next := List.mem_of_getElem? hnext
      refine ⟨pushUnseen ⟨seen, (node, nextEdge + 1) :: below, finished⟩ next, ?_, ?_⟩
      · simp only [finishTurn, targetsOf_eq hnode, Option.bind_eq_bind, Option.bind_some, hnext]
        rfl
      by_cases hseen : seen next = true
      · have hpush : pushUnseen ⟨seen, (node, nextEdge + 1) :: below, finished⟩ next =
            ⟨seen, (node, nextEdge + 1) :: below, finished⟩ := if_pos hseen
        rw [hpush]
        refine ⟨⟨⟨h.search, h.seen, h.bound, fun frame hframe y hy => ?_⟩, fun _ hx => hx⟩, ?_⟩
        · rcases List.mem_cons.1 hframe with rfl | hframe
          · rw [List.take_add_one, hnext, List.mem_append] at hy
            rcases hy with hy | hy
            · exact h.scanned (node, nextEdge) (by simp) y hy
            · rw [Option.toList_some, List.mem_singleton] at hy
              exact hy ▸ hseen
          · exact h.scanned frame (by simp [hframe]) y hy
        · simp only [FinishState.weight, List.map_cons, List.sum_cons]
          omega
      · have hfalse : seen next = false := Bool.eq_false_iff.2 hseen
        have hpush : pushUnseen ⟨seen, (node, nextEdge + 1) :: below, finished⟩ next =
            ⟨Function.update seen next true, (next, 0) :: (node, nextEdge + 1) :: below, finished⟩ := if_neg hseen
        rw [hpush]
        have hent := h.enter (hin.lt hedge) hfalse (fun top htop => by
          obtain rfl := Option.some.inj htop
          exact hedge)
        refine ⟨⟨⟨hent.search, hent.seen, hent.bound, fun frame hframe y hy => ?_⟩, fun x hx => ?_⟩, ?_⟩
        · rcases List.mem_cons.1 hframe with rfl | hframe
          · cases hy
          · rcases List.mem_cons.1 hframe with rfl | hframe
            · rw [List.take_add_one, hnext, List.mem_append] at hy
              rcases hy with hy | hy
              · exact hent.scanned (node, nextEdge) (by simp) y hy
              · rw [Option.toList_some, List.mem_singleton] at hy
                simp [hy]
            · exact hent.scanned frame (by simp [hframe]) y hy
        · by_cases hxn : x = next
          · simp [hxn]
          · simpa only [Function.update_of_ne hxn] using hx
        · simp only [FinishState.weight, List.map_cons, List.sum_cons, sum_unseen (hin.lt hedge) hfalse]
          omega
    | none =>
      have hall : (targetsOf edges node).take nextEdge = targetsOf edges node :=
        List.take_of_length_le (List.getElem?_eq_none_iff.1 hnext)
      have hopen : FinishState.openNodes ⟨seen, (node, nextEdge) :: below, finished⟩ = node :: below.map Prod.fst := rfl
      refine ⟨⟨seen, below, finished ++ [node]⟩, ?_, ⟨⟨?_, fun x => ?_, h.bound, ?_⟩, fun _ hx => hx⟩, ?_⟩
      · simp only [finishTurn, targetsOf_eq hnode, Option.bind_eq_bind, Option.bind_some, hnext]
        rfl
      · refine (show DepthFirst (Depends edges) finished (node :: below.map Prod.fst) from h.search).pop fun y hy => ?_
        have := (h.seen y).1 (h.scanned (node, nextEdge) (by simp) y (by rw [hall]; exact hy))
        exact List.mem_append.1 this
      · rw [h.seen x, hopen]
        simp [FinishState.openNodes]
      · exact fun frame hframe => h.scanned frame (by simp [hframe])
      · simp only [FinishState.weight, List.map_cons, List.sum_cons]
        omega

theorem sum_targets (edges : List (List Nat)) :
    ∑ x ∈ Finset.range edges.length, ((targetsOf edges x).length + 1) = edges.flatten.length + edges.length := by
  induction edges using List.reverseRecOn with
  | nil => rfl
  | append_singleton edges targets ih =>
    rw [List.length_append, List.length_singleton, Finset.sum_range_succ]
    have hlast : targetsOf (edges ++ [targets]) edges.length = targets := by simp [targetsOf]
    have hfirst : ∀ x ∈ Finset.range edges.length,
        (targetsOf (edges ++ [targets]) x).length + 1 = (targetsOf edges x).length + 1 := by
      intro x hx
      rw [targetsOf, targetsOf, List.getElem?_append_left (Finset.mem_range.1 hx)]
    rw [Finset.sum_congr rfl hfirst, ih, hlast, List.flatten_append, List.length_append, List.flatten_singleton]
    omega

/-- From an empty stack a walk from `start` ends with an empty stack, `start` among the nodes seen. -/
theorem finishFrom_spec (hin : InRange edges) {s : FinishState} (h : s.Inv edges) (hstack : s.stack = []) {start : Nat}
    (hstart : start < edges.length) :
    ∃ s', finishFrom edges s start = some s' ∧ s'.Inv edges ∧ s'.stack = [] ∧ s'.seen start = true ∧
      ∀ x, s.seen x = true → s'.seen x = true := by
  unfold finishFrom
  by_cases hs : s.seen start = true
  · rw [if_pos hs]
    exact ⟨s, rfl, h, hstack, hs, fun _ hx => hx⟩
  · rw [if_neg hs]
    have hfalse : s.seen start = false := Bool.eq_false_iff.2 hs
    have hent := h.enter hstart hfalse (by simp [FinishState.openNodes, hstack])
    rw [hstack] at hent
    set s₀ : FinishState := { s with seen := Function.update s.seen start true, stack := [(start, 0)] } with hs₀
    obtain ⟨r, hr, hinv, hempty, hkept⟩ := loop_spec (finishTurn edges)
      (fun t => t.Inv edges ∧ ∀ x, s₀.seen x = true → t.seen x = true) (FinishState.weight edges)
      (fun t => t.Inv edges ∧ t.stack = [] ∧ ∀ x, s₀.seen x = true → t.seen x = true)
      (fun t ht => by
        rcases finishTurn_spec hin ht.1 with ⟨t', hstep, ⟨hinv, hkept⟩, hlt⟩ | ⟨hstep, hempty⟩
        · exact .inl ⟨t', hstep, ⟨hinv, fun x hx => hkept x (ht.2 x hx)⟩, hlt⟩
        · exact .inr ⟨t, hstep, ht.1, hempty, ht.2⟩)
      (walkFuel edges) s₀ ⟨hent, fun _ hx => hx⟩ (by
        have hbound : (∑ x ∈ Finset.range edges.length, if s.seen x then 0 else (targetsOf edges x).length + 1) ≤
            edges.flatten.length + edges.length := by
          rw [← sum_targets]
          exact Finset.sum_le_sum fun x _ => by split <;> omega
        rw [sum_unseen hstart hfalse] at hbound
        simp only [FinishState.weight, walkFuel, hs₀, List.map_cons, List.map_nil, List.sum_cons, List.sum_nil]
        omega)
    refine ⟨r, hr, hinv, hempty, hkept start (by simp [hs₀]), fun x hx => hkept x ?_⟩
    by_cases hxs : x = start
    · simp [hs₀, hxs]
    · simpa only [hs₀, Function.update_of_ne hxs] using hx

theorem finishOrder_spec (hin : InRange edges) :
    ∃ finished, finishOrder edges = some finished ∧ finished.Perm (List.range edges.length) ∧
      FinishOrder (Depends edges) finished := by
  obtain ⟨s, hs, hinv, hstack, hall⟩ := foldlM_spec (f := finishFrom edges) (l := List.range edges.length)
    (fun starts s => s.Inv edges ∧ s.stack = [] ∧ ∀ x ∈ starts, s.seen x = true)
    (fun pre start post s hl hs => by
      have hlt : start < edges.length := List.mem_range.1 (by simp [hl])
      obtain ⟨s', hs', hinv, hstack, hseen, hkept⟩ := finishFrom_spec hin hs.1 hs.2.1 hlt
      refine ⟨s', hs', hinv, hstack, fun x hx => ?_⟩
      rcases List.mem_append.1 hx with hx | hx
      · exact hkept x (hs.2.2 x hx)
      · exact List.mem_singleton.1 hx ▸ hseen)
    (s := ⟨fun _ => false, [], []⟩)
    ⟨⟨.nil, by simp [FinishState.openNodes], by simp, by simp⟩, rfl, by simp⟩
  have hmem : ∀ x, x ∈ s.finished ↔ x < edges.length := by
    intro x
    have hseen := hinv.seen x
    rw [FinishState.openNodes, hstack, List.map_nil, List.append_nil] at hseen
    exact ⟨fun hx => hinv.bound x (hseen.2 hx), fun hx => hseen.1 (hall x (List.mem_range.2 hx))⟩
  have hnd : s.finished.Nodup := (List.nodup_append.1 hinv.search.nodup).1
  refine ⟨s.finished, by rw [finishOrder, hs]; rfl, ?_, hinv.search.order⟩
  exact (List.perm_ext_iff_of_nodup hnd List.nodup_range).2 fun x => by rw [hmem, List.mem_range]

/-! ## The reversed edges -/

theorem targetsOf_modify {transposed : List (List Nat)} {dependency caller x : Nat} (hx : x < transposed.length) {y : Nat} :
    y ∈ targetsOf (transposed.modify dependency (· ++ [caller])) x ↔
      y ∈ targetsOf transposed x ∨ (x = dependency ∧ y = caller) := by
  rw [targetsOf, targetsOf, List.getElem?_modify]
  by_cases hxd : dependency = x
  · subst hxd
    simp [List.getElem?_eq_getElem hx]
  · simp [hxd, Ne.symm hxd]

theorem transposeRow_spec (transposed : List (List Nat)) (row : List Nat × Nat) :
    (transposeRow transposed row).length = transposed.length ∧
      ∀ x < transposed.length, ∀ y,
        y ∈ targetsOf (transposeRow transposed row) x ↔ y ∈ targetsOf transposed x ∨ (x ∈ row.1 ∧ y = row.2) := by
  refine foldl_inv (f := fun transposed dependency => transposed.modify dependency (· ++ [row.2])) (l := row.1)
    (fun passed (t : List (List Nat)) => t.length = transposed.length ∧
      ∀ x < transposed.length, ∀ y, y ∈ targetsOf t x ↔ y ∈ targetsOf transposed x ∨ (x ∈ passed ∧ y = row.2)) ?_
    ⟨rfl, by simp⟩
  intro pre dependency post t hl ht
  refine ⟨by rw [List.length_modify, ht.1], fun x hx y => ?_⟩
  rw [targetsOf_modify (by rw [ht.1]; exact hx), ht.2 x hx y, List.mem_append, List.mem_singleton]
  tauto

theorem transpose_spec (hin : InRange edges) :
    (transpose edges).length = edges.length ∧ ∀ x y, Depends (transpose edges) x y ↔ Depends edges y x := by
  have hpass : (transpose edges).length = edges.length ∧ ∀ x < edges.length, ∀ y,
      y ∈ targetsOf (transpose edges) x ↔ ∃ row ∈ edges.zipIdx, x ∈ row.1 ∧ y = row.2 := by
    refine foldl_inv (f := transposeRow) (l := edges.zipIdx)
      (fun passed (t : List (List Nat)) => t.length = edges.length ∧
        ∀ x < edges.length, ∀ y, y ∈ targetsOf t x ↔ ∃ row ∈ passed, x ∈ row.1 ∧ y = row.2) ?_
      ⟨List.length_replicate, fun x hx y => by simp [targetsOf, hx]⟩
    intro pre row post t hl ht
    obtain ⟨hlen, hrow⟩ := transposeRow_spec t row
    refine ⟨hlen.trans ht.1, fun x hx y => ?_⟩
    rw [hrow x (by rw [ht.1]; exact hx), ht.2 x hx y]
    constructor
    · rintro (⟨other, ho, hxy⟩ | hxy)
      · exact ⟨other, List.mem_append_left _ ho, hxy⟩
      · exact ⟨row, by simp, hxy⟩
    · rintro ⟨other, ho, hxy⟩
      rcases List.mem_append.1 ho with ho | ho
      · exact .inl ⟨other, ho, hxy⟩
      · exact .inr (List.mem_singleton.1 ho ▸ hxy)
  refine ⟨hpass.1, fun x y => ⟨fun h => ?_, fun h => ?_⟩⟩
  · obtain ⟨row, hrow, hxr, rfl⟩ := (hpass.2 x (hpass.1 ▸ Depends.lt h) y).1 h
    have := List.mem_zipIdx_iff_getElem?.1 hrow
    rw [Depends, targetsOf, this]
    exact hxr
  · refine (hpass.2 x (hin.lt h) y).2 ⟨(targetsOf edges y, y), ?_, h, rfl⟩
    exact List.mem_zipIdx_iff_getElem?.2 (targetsOf_eq h.lt)

/-! ## One component -/

namespace CollectState

/-- A search from `start` among the nodes not yet in `seen₀`. -/
structure Inv (edges : List (List Nat)) (seen₀ : Nat → Bool) (start : Nat) (s : CollectState) : Prop where
  nodup : (s.members ++ s.stack).Nodup
  seen : ∀ x, s.seen x = true ↔ seen₀ x = true ∨ x ∈ s.members ++ s.stack
  fresh : ∀ x ∈ s.members ++ s.stack, seen₀ x = false ∧ Reaches (Depends edges) start x
  start_mem : start ∈ s.members ++ s.stack

def Closed (edges : List (List Nat)) (s : CollectState) : Prop :=
  ∀ x ∈ s.members, ∀ y, Depends edges x y → s.seen y = true

variable {seen₀ : Nat → Bool} {start : Nat}

theorem see_spec {s : CollectState} (h : s.Inv edges seen₀ start) {node next : Nat} (hnode : node ∈ s.members)
    (he : Depends edges node next) :
    (s.see next).Inv edges seen₀ start ∧ (s.see next).members = s.members ∧ (s.see next).seen next = true ∧
      ∀ x, s.seen x = true → (s.see next).seen x = true := by
  unfold see
  by_cases hs : s.seen next = true
  · rw [if_pos hs]
    exact ⟨h, rfl, hs, fun _ hx => hx⟩
  · rw [if_neg hs]
    have hnew : next ∉ s.members ++ s.stack := fun hmem => hs ((h.seen next).2 (.inr hmem))
    have hmem : ∀ x, x ∈ s.members ++ next :: s.stack ↔ x = next ∨ x ∈ s.members ++ s.stack := fun x => by
      simp only [List.mem_append, List.mem_cons]
      tauto
    refine ⟨⟨?_, fun x => ?_, fun x hx => ?_, (hmem start).2 (.inr h.start_mem)⟩, rfl, by simp, fun x hx => ?_⟩
    · rw [List.nodup_middle, List.nodup_cons]
      exact ⟨hnew, h.nodup⟩
    · by_cases hx : x = next
      · simp [hx]
      · simp only [Function.update_of_ne hx, h.seen x, hmem x, hx, false_or]
    · rcases (hmem x).1 hx with rfl | hx
      · refine ⟨Bool.eq_false_iff.2 fun h₀ => hs ((h.seen x).2 (.inl h₀)), ?_⟩
        exact (h.fresh node (List.mem_append_left _ hnode)).2.tail he
      · exact h.fresh x hx
    · by_cases hxn : x = next
      · simp [hxn]
      · simpa only [Function.update_of_ne hxn] using hx

theorem turn_spec (hin : InRange edges) {s : CollectState} (h : s.Inv edges seen₀ start) (hc : s.Closed edges)
    (hstart : start < edges.length) :
    (∃ s', collectTurn edges s = some (.next s') ∧ (s'.Inv edges seen₀ start ∧ s'.Closed edges) ∧
      edges.length - s'.members.length < edges.length - s.members.length) ∨
    (collectTurn edges s = some (.done s) ∧ s.stack = []) := by
  obtain ⟨seen, stack, members⟩ := s
  have hbound : ∀ x ∈ members ++ stack, x < edges.length := fun x hx =>
    closed_reaches (P := fun x => x < edges.length) (fun _ _ _ he => hin.lt he) hstart (h.fresh x hx).2
  cases stack with
  | nil => exact .inr ⟨rfl, rfl⟩
  | cons node below =>
    have hnode : node < edges.length := hbound node (by simp)
    have hmoved : members ++ [node] ++ below = members ++ node :: below := by simp
    have htaken : Inv edges seen₀ start ⟨seen, below, members ++ [node]⟩ :=
      ⟨hmoved ▸ h.nodup, hmoved ▸ h.seen, hmoved ▸ h.fresh, hmoved ▸ h.start_mem⟩
    obtain ⟨hinv, hmembers, hseen, hkept⟩ := foldl_inv (f := see) (l := (targetsOf edges node).reverse)
      (fun passed (t : CollectState) => t.Inv edges seen₀ start ∧ t.members = members ++ [node] ∧
        (∀ y ∈ passed, t.seen y = true) ∧ ∀ x, seen x = true → t.seen x = true)
      (fun pre next post t hl ht => by
        obtain ⟨hinv, hmembers, hpassed, hkept⟩ := ht
        have he : Depends edges node next := List.mem_reverse.1 (by simp [hl])
        obtain ⟨hinv', hmembers', hnext, hmono⟩ := see_spec hinv (by simp [hmembers]) he
        refine ⟨hinv', hmembers'.trans hmembers, fun y hy => ?_, fun x hx => hmono x (hkept x hx)⟩
        rcases List.mem_append.1 hy with hy | hy
        · exact hmono y (hpassed y hy)
        · exact List.mem_singleton.1 hy ▸ hnext)
      (s := ⟨seen, below, members ++ [node]⟩) ⟨htaken, rfl, by simp, fun _ hx => hx⟩
    refine .inl ⟨_, by simp only [collectTurn, targetsOf_eq hnode, Option.bind_eq_bind, Option.bind_some]; rfl,
      ⟨hinv, fun x hx y he => ?_⟩, ?_⟩
    · rw [hmembers, List.mem_append, List.mem_singleton] at hx
      rcases hx with hx | rfl
      · exact hkept y (hc x hx y he)
      · exact hseen y (List.mem_reverse.2 he)
    · have hle : (members ++ [node]).length ≤ edges.length := by
        have hsub : (members ++ [node]).Nodup := (List.nodup_append.1 htaken.nodup).1
        have := (List.subperm_of_subset hsub (show members ++ [node] ⊆ List.range edges.length from fun x hx =>
          List.mem_range.2 (hbound x (hmoved ▸ List.mem_append_left _ hx)))).length_le
        simpa using this
      rw [hmembers]
      simp only [List.length_append, List.length_singleton] at hle ⊢
      omega

end CollectState

/-- With `seen` closed under the edges: what `start` reaches and was not seen. -/
theorem collectComponent_spec (hin : InRange edges) (seen : Nat → Bool)
    (hclosed : ∀ x y, seen x = true → Depends edges x y → seen y = true) {start : Nat} (hstart : start < edges.length)
    (hs : seen start = false) :
    ∃ members seen', collectComponent start edges seen = some (members, seen') ∧ members.Nodup ∧
      (∀ x, x ∈ members ↔ seen x = false ∧ Reaches (Depends edges) start x) ∧
      (∀ x, seen' x = true ↔ seen x = true ∨ x ∈ members) := by
  obtain ⟨s, hrun, hinv, hc, hstack⟩ := loop_spec (collectTurn edges)
    (fun s => s.Inv edges seen start ∧ s.Closed edges) (fun s => edges.length - s.members.length)
    (fun s => s.Inv edges seen start ∧ s.Closed edges ∧ s.stack = [])
    (fun s h => by
      rcases CollectState.turn_spec hin h.1 h.2 hstart with ⟨s', hstep, hs', hlt⟩ | ⟨hstep, hstack⟩
      · exact .inl ⟨s', hstep, hs', hlt⟩
      · exact .inr ⟨s, hstep, h.1, h.2, hstack⟩)
    (edges.length + 1) ⟨Function.update seen start true, [start], []⟩
    ⟨⟨by simp, fun x => by
        by_cases hx : x = start
        · simp [hx]
        · simp [hx], by simpa using ⟨hs, .refl⟩, by simp⟩,
      fun x hx => by simp at hx⟩ (by simp)
  have hmem : s.members ++ s.stack = s.members := by rw [hstack, List.append_nil]
  refine ⟨s.members, s.seen, by rw [collectComponent, hrun]; rfl, hmem ▸ hinv.nodup, fun x => ?_, ?_⟩
  · refine ⟨fun hx => hinv.fresh x (by rw [hmem]; exact hx), fun ⟨hx, hr⟩ => ?_⟩
    have hall : s.seen x = true :=
      closed_reaches (P := fun x => s.seen x = true) (fun a b ha he => by
        rcases (hinv.seen a).1 ha with ha | ha
        · exact (hinv.seen b).2 (.inl (hclosed a b ha he))
        · exact hc a (hmem ▸ ha) b he) ((hinv.seen start).2 (.inr hinv.start_mem)) hr
    rcases (hinv.seen x).1 hall with h | h
    · rw [hx] at h
      cases h
    · exact hmem ▸ h
  · have := hinv.seen
    rwa [hmem] at this

/-! ## The components -/

/-- The members in ascending order; recursive when a member has a path back to itself. -/
structure SccOf (edges : List (List Nat)) (members : List Nat) (scc : DependencyScc) : Prop where
  perm : scc.members.Perm members
  ascending : scc.members.Pairwise (· < ·)
  recursive : scc.recursive = true ↔ ∃ x ∈ scc.members, Relation.TransGen (Depends edges) x x

theorem sccOf_spec {members : List Nat} (hc : IsComponent (Depends edges) members) (hnd : members.Nodup)
    (hbound : ∀ x ∈ members, x < edges.length) : ∃ scc, sccOf edges members = some scc ∧ SccOf edges members scc := by
  have hperm : (members.insertionSort (· ≤ ·)).Perm members := List.perm_insertionSort _ _
  have hlt : (members.insertionSort (· ≤ ·)).Pairwise (· < ·) :=
    ((List.pairwise_insertionSort (· ≤ ·) members).and (hperm.nodup_iff.2 hnd)).imp fun h => by omega
  obtain ⟨first, rest, hsorted⟩ : ∃ first rest, members.insertionSort (· ≤ ·) = first :: rest :=
    List.exists_cons_of_ne_nil fun hnil => hc.1 (List.eq_nil_of_length_eq_zero (by
      rw [← hperm.length_eq, hnil, List.length_nil]))
  have hfirst : first ∈ members := hperm.subset (by simp [hsorted])
  refine ⟨⟨first :: rest, decide (1 < (first :: rest).length) || (targetsOf edges first).any (· == first)⟩, ?_,
    hsorted ▸ hperm, hsorted ▸ hlt, ?_⟩
  · simp only [sccOf, hsorted, List.getElem?_cons_zero, Option.bind_eq_bind, Option.bind_some,
      targetsOf_eq (hbound first hfirst)]
    rfl
  simp only [Bool.or_eq_true, decide_eq_true_eq, List.any_eq_true, beq_iff_eq, exists_eq_right]
  constructor
  · rintro (hlen | hself)
    · cases rest with
      | nil => simp at hlen
      | cons second rest =>
        have hsecond : second ∈ members := hperm.subset (by simp [hsorted])
        have hne : first ≠ second := by
          rw [hsorted] at hlt
          exact Nat.ne_of_lt ((List.pairwise_cons.1 hlt).1 second (by simp))
        have hm : Mutual (Depends edges) first second := (hc.2 first hfirst second).1 hsecond
        refine ⟨first, by simp, ?_⟩
        rcases Relation.reflTransGen_iff_eq_or_transGen.1 hm.1 with heq | hpath
        · exact absurd heq.symm hne
        · exact hpath.trans_left hm.2
    · exact ⟨first, by simp, .single hself⟩
  · rintro ⟨x, hx, hcycle⟩
    cases rest with
    | cons second rest => exact .inl (by simp)
    | nil =>
      obtain rfl := List.mem_singleton.1 hx
      obtain ⟨y, hxy, hyx⟩ := Relation.TransGen.head'_iff.1 hcycle
      have hy : y ∈ members := (hc.2 x hfirst y).2 ⟨.single hxy, hyx⟩
      have hyx' : y ∈ [x] := hsorted ▸ hperm.mem_iff.2 hy
      obtain rfl := List.mem_singleton.1 hyx'
      exact .inr hxy

/-- The second walk after some of the nodes, the last node finished first. -/
structure Collected (edges : List (List Nat)) (starts : List Nat) (s : (Nat → Bool) × List DependencyScc) : Prop where
  order : ComponentOrder (flip (Depends edges)) (s.2.map DependencyScc.members)
  seen : ∀ x, s.1 x = true ↔ x ∈ (s.2.map DependencyScc.members).flatten
  started : ∀ x ∈ starts, s.1 x = true
  bound : ∀ x, s.1 x = true → x < edges.length
  scc : ∀ scc ∈ s.2, SccOf edges scc.members scc

theorem visitStart_spec (hin : InRange edges) {finished pre : List Nat} (post : List Nat) {start : Nat}
    (hfinished : finished.Perm (List.range edges.length)) (horder : FinishOrder (Depends edges) finished)
    (hsplit : finished = post ++ start :: pre.reverse) {s : (Nat → Bool) × List DependencyScc}
    (h : Collected edges pre s) :
    ∃ s', visitStart edges (transpose edges) s start = some s' ∧ Collected edges (pre ++ [start]) s' := by
  unfold visitStart
  by_cases hs : s.1 start = true
  · rw [if_pos hs]
    refine ⟨s, rfl, h.order, h.seen, fun x hx => ?_, h.bound, h.scc⟩
    rcases List.mem_append.1 hx with hx | hx
    · exact h.started x hx
    · exact List.mem_singleton.1 hx ▸ hs
  rw [if_neg hs]
  obtain ⟨hlen, hedges⟩ := transpose_spec hin
  have hmem : ∀ x, x ∈ finished ↔ x < edges.length := fun x => by rw [hfinished.mem_iff, List.mem_range]
  have hstart : start < edges.length := (hmem start).1 (by simp [hsplit])
  have hrev : InRange (transpose edges) := by
    intro targets ht target htarget
    obtain ⟨x, hx⟩ := List.mem_iff_getElem?.1 ht
    have he : Depends (transpose edges) x target := by
      rw [Depends, targetsOf, hx]
      exact htarget
    rw [hlen]
    exact ((hedges x target).1 he).lt
  have hflip : Depends (transpose edges) = flip (Depends edges) := by
    funext x y
    exact propext (hedges x y)
  have hclosed : ∀ x y, s.1 y = true → Depends edges x y → s.1 x = true := fun x y hy he =>
    (h.seen x).2 (h.order.flatten_closed ((h.seen y).1 hy) he)
  obtain ⟨members, seen', hrun, hnd, hmembers, hseen'⟩ := collectComponent_spec hrev s.1
    (fun x y hx he => hclosed y x hx ((hedges x y).1 he)) (hlen ▸ hstart) (Bool.eq_false_iff.2 hs)
  rw [hflip] at hmembers
  have hswap : ∀ a b, Reaches (flip (Depends edges)) a b ↔ Reaches (Depends edges) b a :=
    fun _ _ => Relation.reflTransGen_swap
  have hbound : ∀ x ∈ members, x < edges.length := fun x hx =>
    closed_reaches (E := flip (Depends edges)) (P := fun x => x < edges.length) (fun _ _ _ he => he.lt) hstart
      ((hmembers x).1 hx).2
  -- what reaches the start, unseen, is reached from it
  have hback : ∀ x ∈ members, Reaches (Depends edges) start x := fun x hx => by
    have hx' := (hmembers x).1 hx
    refine FinishOrder.back (hsplit ▸ horder) (hsplit ▸ hfinished.nodup_iff.2 List.nodup_range) ?_
      (fun x => s.1 x = true) (fun y hy => h.started y (List.mem_reverse.1 hy)) hclosed ?_
      (Bool.eq_false_iff.1 hx'.1) ((hswap _ _).1 hx'.2)
    · rw [← hsplit]
      exact fun a _ b he => (hmem b).2 (hin.lt he)
    · rw [← hsplit]
      exact (hmem x).2 (hbound x hx)
  have hmut : ∀ x ∈ members, ∀ y ∈ members, Reaches (flip (Depends edges)) x y := fun x hx y hy =>
    (hswap x y).2 (((hswap _ _).1 ((hmembers y).1 hy).2).trans (hback x hx))
  have hstep : ∀ x ∈ members, ∀ y, flip (Depends edges) x y →
      y ∈ members ∨ y ∈ (s.2.map DependencyScc.members).flatten := fun x hx y he => by
    by_cases hy : s.1 y = true
    · exact .inr ((h.seen y).1 hy)
    · exact .inl ((hmembers y).2 ⟨Bool.eq_false_iff.2 hy, ((hmembers x).1 hx).2.tail he⟩)
  have hself : start ∈ members := (hmembers start).2 ⟨Bool.eq_false_iff.2 hs, .refl⟩
  have hdis : ∀ x ∈ members, x ∉ (s.2.map DependencyScc.members).flatten := fun x hx hxs => by
    have := (hmembers x).1 hx
    rw [(h.seen x).2 hxs] at this
    exact nomatch this.1
  have hcs : ComponentOrder (flip (Depends edges)) (s.2.map DependencyScc.members ++ [members]) :=
    h.order.snoc (List.ne_nil_of_mem hself) hnd hdis hmut hstep
  have hcomp : IsComponent (Depends edges) members := by
    have hc := hcs.component members (by simp)
    exact ⟨hc.1, fun x hx y => by rw [hc.2 x hx y, Mutual, Mutual, hswap, hswap, and_comm]⟩
  obtain ⟨scc, hscc, hof⟩ := sccOf_spec hcomp hnd hbound
  refine ⟨(seen', s.2 ++ [scc]), by rw [hrun]; simp only [Option.bind_eq_bind, Option.bind_some, hscc]; rfl, ?_⟩
  have hflat : ∀ x, x ∈ ((s.2 ++ [scc]).map DependencyScc.members).flatten ↔ s.1 x = true ∨ x ∈ members := fun x => by
    rw [List.map_append, List.flatten_append, List.mem_append, ← h.seen x]
    simp [hof.perm.mem_iff]
  refine ⟨?_, fun x => by rw [hseen' x, hflat x], fun x hx => (hseen' x).2 ?_, fun x hx => ?_, fun c hc => ?_⟩
  · rw [List.map_append, List.map_singleton]
    refine h.order.snoc ?_ (hof.perm.nodup_iff.2 hnd) (fun x hx => hdis x (hof.perm.mem_iff.1 hx)) ?_ ?_
    · exact List.ne_nil_of_mem (hof.perm.mem_iff.2 hself)
    · exact fun x hx y hy => hmut x (hof.perm.mem_iff.1 hx) y (hof.perm.mem_iff.1 hy)
    · exact fun x hx y he => (hstep x (hof.perm.mem_iff.1 hx) y he).imp hof.perm.mem_iff.2 id
  · rcases List.mem_append.1 hx with hx | hx
    · exact .inl (h.started x hx)
    · exact .inr (List.mem_singleton.1 hx ▸ hself)
  · exact ((hseen' x).1 hx).elim (h.bound x) (hbound x)
  · rcases List.mem_append.1 hc with hc | hc
    · exact h.scc c hc
    · rw [List.mem_singleton.1 hc]
      exact ⟨.refl _, hof.ascending, hof.recursive⟩

/-- The components of the graph: every node in one of them, the members in
ascending order, and each dependency in the same or an earlier component. -/
theorem dependencyFirstSccs_spec (edges : List (List Nat)) (hin : InRange edges) :
    ∃ sccs, dependencyFirstSccs edges = some (.ok sccs) ∧
      (sccs.map DependencyScc.members).flatten.Perm (List.range edges.length) ∧
      (∀ scc ∈ sccs, IsComponent (Depends edges) scc.members ∧ scc.members.Pairwise (· < ·) ∧
        (scc.recursive = true ↔ ∃ x ∈ scc.members, Relation.TransGen (Depends edges) x x)) ∧
      Earlier (Depends edges) (sccs.map DependencyScc.members) := by
  obtain ⟨finished, hfinish, hperm, horder⟩ := finishOrder_spec hin
  obtain ⟨s, hrun, hs⟩ := foldlM_spec (f := visitStart edges (transpose edges)) (l := finished.reverse)
    (Collected edges)
    (fun pre start post s hl h => visitStart_spec hin post.reverse hperm horder
      (by rw [← List.reverse_reverse finished, hl]; simp) h)
    (s := (fun _ => false, [])) ⟨.nil, by simp, by simp, by simp, by simp⟩
  have hmem : ∀ x, x ∈ (s.2.map DependencyScc.members).flatten ↔ x < edges.length := fun x => by
    rw [← hs.seen x]
    exact ⟨hs.bound x, fun hx => hs.started x (List.mem_reverse.2 (hperm.mem_iff.2 (List.mem_range.2 hx)))⟩
  have hcs : ComponentOrder (Depends edges) (s.2.map DependencyScc.members).reverse :=
    hs.order.reverse fun x _ y he => (hmem y).2 (hin.lt he)
  rw [← List.map_reverse] at hcs
  refine ⟨s.2.reverse, ?_, ?_, fun scc hscc => ?_, hcs.earlier⟩
  · simp only [dependencyFirstSccs, hin.checkTargets, hfinish, Option.bind_eq_bind, Option.bind_some, hrun]
    rfl
  · refine (List.perm_ext_iff_of_nodup hcs.nodup List.nodup_range).2 fun x => ?_
    rw [List.mem_range, ← hmem x, List.map_reverse]
    exact (List.reverse_perm _).flatten.mem_iff
  · have hof := hs.scc scc (List.mem_reverse.1 hscc)
    exact ⟨hcs.component scc.members (List.mem_map_of_mem hscc), hof.ascending, hof.recursive⟩

/-- Two nodes that depend on each other, a node below them, one above and one that depends on itself. -/
theorem dependencyFirstSccs_spec_five :
    ∃ sccs, dependencyFirstSccs [[1], [2, 3], [], [1], [4]] = some (.ok sccs) ∧
      (sccs.map DependencyScc.members).flatten.Perm (List.range 5) ∧
      (∀ scc ∈ sccs, IsComponent (Depends [[1], [2, 3], [], [1], [4]]) scc.members ∧ scc.members.Pairwise (· < ·) ∧
        (scc.recursive = true ↔ ∃ x ∈ scc.members, Relation.TransGen (Depends [[1], [2, 3], [], [1], [4]]) x x)) ∧
      Earlier (Depends [[1], [2, 3], [], [1], [4]]) (sccs.map DependencyScc.members) :=
  dependencyFirstSccs_spec [[1], [2, 3], [], [1], [4]] (by unfold InRange; decide)

end Rumoca.Core
