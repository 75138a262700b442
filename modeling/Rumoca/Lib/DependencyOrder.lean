import Mathlib.Tactic
/-!
# Orders that follow a dependency relation

A property of a member and of what stands before it, for every member of a
list, is `Stepwise`. `R a b` says that `a` depends on `b`, and a list is
`Placed` when each member comes after everything it depends on, which is what
a topological sort promises. A complete placed list exists for acyclic relations only, and a set
that no member can leave first holds a cycle.
-/

namespace Rumoca.Lib

variable {α : Type} {R : α → α → Prop}

/-- Every member satisfies `Q` with the list of those before it. -/
def Stepwise (Q : List α → α → Prop) (order : List α) : Prop := ∀ pre a post, order = pre ++ a :: post → Q pre a

section
variable {Q : List α → α → Prop}

theorem Stepwise.nil : Stepwise Q [] := by
  intro pre a post h
  cases pre <;> cases h

theorem Stepwise.append {order tail : List α} (h : Stepwise Q order)
    (htail : ∀ pre a post, tail = pre ++ a :: post → Q (order ++ pre) a) : Stepwise Q (order ++ tail) := by
  intro pre a post hsplit
  rcases List.append_eq_append_iff.1 hsplit with ⟨mid, rfl, hmid⟩ | ⟨mid, rfl, hmid⟩
  · exact htail mid a post hmid
  · cases mid with
    | nil => simpa using htail [] a post (by simpa using hmid.symm)
    | cons first mid =>
      obtain ⟨rfl, rfl⟩ := List.cons.inj hmid
      exact h pre a mid rfl

theorem Stepwise.snoc {order : List α} {a : α} (h : Stepwise Q order) (ha : Q order a) : Stepwise Q (order ++ [a]) := by
  refine h.append fun pre b post hsplit => ?_
  rcases pre with _ | ⟨first, pre⟩
  · obtain ⟨rfl, -⟩ := List.cons.inj hsplit
    simpa using ha
  · simp at hsplit

theorem Stepwise.of_append {order tail : List α} (h : Stepwise Q (order ++ tail)) : Stepwise Q order :=
  fun pre a post hsplit => h pre a (post ++ tail) (by simp [hsplit])

end

def Placed (R : α → α → Prop) (order : List α) : Prop := Stepwise (fun pre a => ∀ b, R a b → b ∈ pre) order

/-- Nothing depends on itself, not even through others. -/
def CycleFree (R : α → α → Prop) : Prop := ∀ a, ¬Relation.TransGen R a a

theorem Placed.idxOf_lt [DecidableEq α] {order : List α} (h : Placed R order) (hnodup : order.Nodup) {a b : α}
    (ha : a ∈ order) (hab : R a b) : b ∈ order ∧ order.idxOf b < order.idxOf a := by
  obtain ⟨pre, post, rfl⟩ := List.append_of_mem ha
  have hb : b ∈ pre := h pre a post rfl b hab
  have hane : a ∉ pre := fun hmem =>
    (List.disjoint_of_nodup_append hnodup) hmem (List.mem_cons_self ..)
  refine ⟨List.mem_append_left _ hb, ?_⟩
  rw [List.idxOf_append_of_mem hb, List.idxOf_append_of_notMem hane]
  exact Nat.lt_of_lt_of_le (List.idxOf_lt_length_of_mem hb) (Nat.le_add_right ..)

theorem Placed.cycleFree [DecidableEq α] {order : List α} (h : Placed R order) (hnodup : order.Nodup)
    (hall : ∀ a b, R a b → a ∈ order) : CycleFree R := by
  have key : ∀ a b, Relation.TransGen R a b → order.idxOf b < order.idxOf a := by
    intro a b hab
    induction hab with
    | single hab => exact (h.idxOf_lt hnodup (hall _ _ hab) hab).2
    | tail _ hbc ih => exact (h.idxOf_lt hnodup (hall _ _ hbc) hbc).2.trans ih
  exact fun a ha => (key a a ha).false

theorem CycleFree.exists_minimal (h : CycleFree R) {s : List α} (hs : s ≠ []) : ∃ a ∈ s, ∀ b ∈ s, ¬R a b := by
  let below : α → α → Prop := fun b a => Relation.TransGen R a b
  have : IsStrictOrder α below := { trans := fun a b c hab hbc => hbc.trans hab, irrefl := h }
  have hwf : {a | a ∈ s}.WellFoundedOn below := s.finite_toSet.wellFoundedOn
  obtain ⟨a, ha⟩ := List.exists_mem_of_ne_nil s hs
  obtain ⟨⟨m, hm⟩, -, hmin⟩ := hwf.has_min Set.univ ⟨⟨a, ha⟩, trivial⟩
  exact ⟨m, hm, fun b hb hmb => hmin ⟨b, hb⟩ trivial (.single hmb)⟩

/-! ## Dependencies still missing -/

/-- How many of `deps` are not in `done`: the in-degree of a topological sort. -/
def missing [DecidableEq α] (deps done : List α) : Nat := (deps.filter (· ∉ done)).length

theorem missing_eq_zero [DecidableEq α] {deps done : List α} : missing deps done = 0 ↔ ∀ b ∈ deps, b ∈ done := by
  simp [missing]

theorem missing_nil [DecidableEq α] (deps : List α) : missing deps [] = deps.length := by
  simp [missing]

theorem missing_cons [DecidableEq α] (b : α) (deps done : List α) :
    missing (b :: deps) done = missing deps done + if b ∈ done then 0 else 1 := by
  by_cases hb : b ∈ done <;> simp [missing, hb]

theorem missing_snoc_count [DecidableEq α] (deps : List α) {done : List α} {a : α} (ha : a ∉ done) :
    missing deps done = missing deps (done ++ [a]) + deps.count a := by
  induction deps with
  | nil => rfl
  | cons b deps ih =>
    rw [missing_cons, missing_cons, ih, List.count_cons]
    by_cases hb : b = a
    · subst hb
      simp [ha]
      omega
    · simp only [List.mem_append, List.mem_singleton, hb, or_false, beq_iff_eq, if_false]
      omega

theorem missing_snoc [DecidableEq α] {deps done : List α} {a : α} (hdeps : deps.Nodup) (ha : a ∉ done) :
    missing deps done = missing deps (done ++ [a]) + if a ∈ deps then 1 else 0 := by
  rw [missing_snoc_count deps ha, hdeps.count]

end Rumoca.Lib
