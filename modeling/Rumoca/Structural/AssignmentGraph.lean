import Rumoca.Structural.AssignmentFlow
/-!
# The residual graph

`Shape` is what building the graph establishes and reversing an edge keeps:
edges and their reverses pair up with opposite availability, and an edge is
determined by its ends. `reverseEdge_spec` reads a reversal as a flip of
availability, which is all the searches need to know of the edge lists.
-/

namespace Rumoca.Structural

open Rumoca.Lib

namespace Assignment

/-- An edge from `u` to `v` is available. -/
def Av (graph : Assignment) (u v : Nat) : Prop := ∃ edge ∈ graph.edges u, edge.target = v ∧ edge.available = true

/-- The lists hold one edge for each pair of `adj`, of cost `w`, next to its reverse. -/
structure Shape (n m : Nat) (w : Nat → Nat → Int) (adj : Nat → Nat → Prop) (graph : Assignment) : Prop where
  source_eq : graph.source = n + m
  sink_eq : graph.sink = n + m + 1
  pair : ∀ (u i : Nat) edge, (graph.edges u)[i]? = some edge → ∃ back, (graph.edges edge.target)[edge.reverse]? =
    some back ∧ back.target = u ∧ back.reverse = i ∧ back.available = !edge.available
  unique : ∀ (u i j : Nat) edge other, (graph.edges u)[i]? = some edge → (graph.edges u)[j]? = some other →
    edge.target = other.target → i = j
  cost : ∀ u, ∀ edge ∈ graph.edges u, edge.cost = w u edge.target
  adj_iff : ∀ u v, adj u v ↔ ∃ edge ∈ graph.edges u, edge.target = v
  last : ∀ c, IsColumn n m c → ∃ edge, (graph.edges c).getLast? = some edge ∧ edge.target = n + m + 1

section
variable {n m : Nat} {w : Nat → Nat → Int} {adj : Nat → Nat → Prop} {graph : Assignment}

theorem Shape.not_self (h : Shape n m w adj graph) {u i : Nat} {edge : Edge}
    (he : (graph.edges u)[i]? = some edge) : edge.target ≠ u := by
  intro htarget
  obtain ⟨back, hback, hbt, -, hba⟩ := h.pair u i edge he
  rw [htarget] at hback
  have := h.unique u i _ edge back he hback (htarget.trans hbt.symm)
  rw [← this, he] at hback
  rw [Option.some.inj hback] at hba
  cases hav : back.available <;> simp [hav] at hba

theorem Shape.eq_of_target (h : Shape n m w adj graph) {u i : Nat} {edge other : Edge}
    (he : (graph.edges u)[i]? = some edge) (ho : other ∈ graph.edges u) (ht : other.target = edge.target) :
    other = edge := by
  obtain ⟨j, hj⟩ := List.mem_iff_getElem?.1 ho
  have := h.unique u i j edge other he hj ht.symm
  rw [← this, he] at hj
  exact (Option.some.inj hj).symm

theorem Shape.av_iff (h : Shape n m w adj graph) {u i : Nat} {edge : Edge} (he : (graph.edges u)[i]? = some edge) :
    Av graph u edge.target ↔ edge.available = true := by
  constructor
  · rintro ⟨other, ho, ht, ha⟩
    rwa [← h.eq_of_target he ho ht]
  · exact fun ha => ⟨edge, List.mem_of_getElem? he, rfl, ha⟩

theorem Shape.av_reverse (h : Shape n m w adj graph) {u v : Nat} (hadj : adj u v) : Av graph u v ↔ ¬ Av graph v u := by
  obtain ⟨edge, hmem, rfl⟩ := (h.adj_iff u v).1 hadj
  obtain ⟨i, he⟩ := List.mem_iff_getElem?.1 hmem
  obtain ⟨back, hback, rfl, -, hba⟩ := h.pair u i edge he
  rw [h.av_iff he, h.av_iff hback, hba]
  simp

theorem Shape.adj_of_av (h : Shape n m w adj graph) {u v : Nat} (hav : Av graph u v) : adj u v := by
  obtain ⟨edge, hmem, ht, -⟩ := hav
  exact (h.adj_iff u v).2 ⟨edge, hmem, ht⟩

/-! ## Reversing an edge -/

/-- The lists after availability was set by `flag`. -/
def Flagged (graph graph' : Assignment) (flag : Nat → Nat → Edge → Bool) : Prop :=
  ∀ u i : Nat, (graph'.edges u)[i]? = (graph.edges u)[i]?.map fun edge => { edge with available := flag u i edge }

theorem Flagged.get {graph' : Assignment} {flag : Nat → Nat → Edge → Bool} (h : Flagged graph graph' flag)
    {u i : Nat} {edge : Edge} (he : (graph.edges u)[i]? = some edge) :
    (graph'.edges u)[i]? = some { edge with available := flag u i edge } := by
  rw [h, he]
  rfl

theorem Flagged.target_mem {graph' : Assignment} {flag : Nat → Nat → Edge → Bool} (h : Flagged graph graph' flag)
    {u v : Nat} : (∃ edge ∈ graph'.edges u, edge.target = v) ↔ ∃ edge ∈ graph.edges u, edge.target = v := by
  simp only [List.mem_iff_getElem?, h u, Option.map_eq_some_iff]
  constructor
  · rintro ⟨edge, ⟨i, other, ho, rfl⟩, ht⟩
    exact ⟨other, ⟨i, ho⟩, ht⟩
  · rintro ⟨edge, ⟨i, hi⟩, ht⟩
    exact ⟨_, ⟨i, edge, hi, rfl⟩, ht⟩

/-- Every edge of `graph` is in `graph'`, to the same node. -/
def SameTargets (graph graph' : Assignment) : Prop :=
  ∀ (u i : Nat) edge, (graph.edges u)[i]? = some edge →
    ∃ edge', (graph'.edges u)[i]? = some edge' ∧ edge'.target = edge.target

theorem reverseEdge_flagged (h : Shape n m w adj graph) {u i : Nat} {edge : Edge}
    (he : (graph.edges u)[i]? = some edge) :
    ∃ graph', graph.reverseEdge u i = some graph' ∧ graph'.potentials = graph.potentials ∧
      graph'.source = graph.source ∧ graph'.sink = graph.sink ∧
      Flagged graph graph' fun a k e => if a = u ∧ k = i then false
        else if a = edge.target ∧ k = edge.reverse then true else e.available := by
  obtain ⟨back, hback, -⟩ := h.pair u i edge he
  have hne := h.not_self he
  have hstep : Function.update graph.edges u ((graph.edges u).set i { edge with available := false }) edge.target =
      graph.edges edge.target := Function.update_of_ne hne _ _
  simp only [reverseEdge, he, Option.bind_eq_bind, Option.bind_some, hstep, hback]
  refine ⟨_, rfl, rfl, rfl, rfl, fun a k => ?_⟩
  by_cases hat : a = edge.target
  · subst hat
    simp only [Function.update_self, hne, false_and, if_false, true_and]
    by_cases hk : k = edge.reverse
    · subst hk
      simp [hback, List.getElem?_set_self (List.getElem?_eq_some_iff.1 hback).1]
    · rw [List.getElem?_set_ne (Ne.symm hk)]
      cases (graph.edges edge.target)[k]? <;> simp [hk]
  · simp only [Function.update_of_ne hat, hat, false_and, if_false]
    by_cases hau : a = u
    · subst hau
      simp only [Function.update_self, true_and]
      by_cases hk : k = i
      · subst hk
        simp [he, List.getElem?_set_self (List.getElem?_eq_some_iff.1 he).1]
      · rw [List.getElem?_set_ne (Ne.symm hk)]
        cases (graph.edges a)[k]? <;> simp [hk]
    · simp only [Function.update_of_ne hau, hau, false_and, if_false]
      cases (graph.edges a)[k]? <;> rfl

theorem reverseEdge_spec (h : Shape n m w adj graph) {u i : Nat} {edge : Edge}
    (he : (graph.edges u)[i]? = some edge) :
    ∃ graph', graph.reverseEdge u i = some graph' ∧ graph'.potentials = graph.potentials ∧
      SameTargets graph graph' ∧ Shape n m w adj graph' ∧
        ∀ a b, Av graph' a b ↔ flip (Av graph) u edge.target a b := by
  obtain ⟨graph', hr, hp, hsrc, hsnk, hflag⟩ := reverseEdge_flagged h he
  obtain ⟨back, hback, hbt, hbr, hba⟩ := h.pair u i edge he
  have hne := h.not_self he
  have hold : ∀ {a k : Nat} {d : Edge}, (graph'.edges a)[k]? = some d → ∃ d₀, (graph.edges a)[k]? = some d₀ ∧
      d = { d₀ with available := if a = u ∧ k = i then false
        else if a = edge.target ∧ k = edge.reverse then true else d₀.available } := by
    intro a k d hd
    rw [hflag a k, Option.map_eq_some_iff] at hd
    obtain ⟨d₀, hd₀, rfl⟩ := hd
    exact ⟨d₀, hd₀, rfl⟩
  refine ⟨graph', hr, hp, fun a k d hd => ⟨_, hflag.get hd, rfl⟩, ⟨hsrc.trans h.source_eq, hsnk.trans h.sink_eq, fun a k d hd => ?_,
    fun a k l d d' hd hd' ht => ?_, fun a d hd => ?_, fun a b => ?_, fun c hc => ?_⟩, fun a b => ?_⟩
  · -- the partner of a flipped edge is the other flipped edge
    obtain ⟨d₀, hd₀, rfl⟩ := hold hd
    obtain ⟨b₀, hb₀, hbt₀, hbr₀, hba₀⟩ := h.pair a k d₀ hd₀
    refine ⟨_, hflag.get hb₀, hbt₀, hbr₀, ?_⟩
    by_cases h1 : a = u ∧ k = i
    · obtain ⟨rfl, rfl⟩ := h1
      obtain rfl : edge = d₀ := by simpa [he] using hd₀
      simp [hne]
    by_cases h2 : a = edge.target ∧ k = edge.reverse
    · obtain ⟨rfl, rfl⟩ := h2
      obtain rfl : back = d₀ := by simpa [hback] using hd₀
      simp [hbt, hbr, hne]
    have h3 : ¬ (d₀.target = u ∧ d₀.reverse = i) := by
      rintro ⟨h3, h4⟩
      rw [h3, h4, he] at hb₀
      obtain rfl := Option.some.inj hb₀
      exact h2 ⟨hbt₀.symm, hbr₀.symm⟩
    have h4 : ¬ (d₀.target = edge.target ∧ d₀.reverse = edge.reverse) := by
      rintro ⟨h3, h4⟩
      rw [h3, h4, hback] at hb₀
      obtain rfl := Option.some.inj hb₀
      exact h1 ⟨hbt₀.symm.trans hbt, hbr₀.symm.trans hbr⟩
    simp only [h1, h2, h3, h4, if_false]
    exact hba₀
  · obtain ⟨d₀, hd₀, rfl⟩ := hold hd
    obtain ⟨d₀', hd₀', rfl⟩ := hold hd'
    exact h.unique a k l d₀ d₀' hd₀ hd₀' ht
  · obtain ⟨k, hk⟩ := List.mem_iff_getElem?.1 hd
    obtain ⟨d₀, hd₀, rfl⟩ := hold hk
    exact h.cost a d₀ (List.mem_of_getElem? hd₀)
  · rw [h.adj_iff, hflag.target_mem]
  · obtain ⟨d, hd, ht⟩ := h.last c hc
    have hlen : (graph'.edges c).length = (graph.edges c).length := by
      refine Nat.le_antisymm ?_ ?_ <;> refine Nat.le_of_not_lt fun hlt => ?_
      · have h1 := hflag c (graph.edges c).length
        rw [List.getElem?_eq_getElem hlt, List.getElem?_eq_none (le_refl _)] at h1
        cases h1
      · have h1 := hflag c (graph'.edges c).length
        rw [List.getElem?_eq_none (le_refl _), List.getElem?_eq_getElem hlt] at h1
        cases h1
    rw [List.getLast?_eq_getElem?] at hd
    obtain ⟨d', hd', ht'⟩ : ∃ d', (graph'.edges c)[(graph.edges c).length - 1]? = some d' ∧ d'.target = d.target :=
      ⟨_, hflag.get hd, rfl⟩
    exact ⟨d', by rw [List.getLast?_eq_getElem?, hlen, hd'], ht'.trans ht⟩
  · constructor
    · rintro ⟨d, hd, rfl, ha⟩
      obtain ⟨k, hk⟩ := List.mem_iff_getElem?.1 hd
      obtain ⟨d₀, hd₀, rfl⟩ := hold hk
      by_cases h1 : a = u ∧ k = i
      · simp [h1] at ha
      by_cases h2 : a = edge.target ∧ k = edge.reverse
      · obtain ⟨rfl, rfl⟩ := h2
        obtain rfl : back = d₀ := by simpa [hback] using hd₀
        exact .inl ⟨rfl, hbt⟩
      · simp only [h1, h2, if_false] at ha
        refine .inr ⟨⟨d₀, List.mem_of_getElem? hd₀, rfl, ha⟩, ?_⟩
        rintro ⟨rfl, ht⟩
        exact h1 ⟨rfl, h.unique a k i d₀ edge hd₀ he ht⟩
    · rintro (⟨rfl, rfl⟩ | ⟨⟨d, hd, rfl, ha⟩, hnot⟩)
      · refine ⟨_, List.mem_of_getElem? (hflag.get hback), hbt, ?_⟩
        simp [hne]
      · obtain ⟨k, hk⟩ := List.mem_iff_getElem?.1 hd
        have h1 : ¬ (a = u ∧ k = i) := by
          rintro ⟨rfl, rfl⟩
          obtain rfl : edge = d := by simpa [he] using hk
          exact hnot ⟨rfl, rfl⟩
        refine ⟨_, List.mem_of_getElem? (hflag.get hk), rfl, ?_⟩
        simp only [h1, if_false, ha]
        split <;> rfl

end

end Assignment

end Rumoca.Structural
