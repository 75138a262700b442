import Mathlib.Data.Set.Lattice
import Mathlib.Order.Interval.Set.Basic
/-!
# Separated intervals

Lists of closed intervals of naturals, the set they cover, and what a sorted
list gains when no two neighbours overlap or touch: the interval that holds an
index is unique, and an interval of covered indices lies in a single one.
-/

namespace Rumoca.Lib

abbrev Interval := Nat × Nat

namespace Interval

def covered (l : List Interval) : Set Nat := {i | ∃ p ∈ l, p.1 ≤ i ∧ i ≤ p.2}

/-- Sorted nonempty intervals with a gap between any two. -/
structure Separated (l : List Interval) : Prop where
  nonempty : ∀ p ∈ l, p.1 ≤ p.2
  gaps : l.Pairwise fun p q => p.2 + 1 < q.1

variable {l left right : List Interval} {p q : Interval} {i : Nat}

@[simp] theorem covered_nil : covered [] = ∅ := by simp [covered]

@[simp] theorem covered_cons : covered (p :: l) = Set.Icc p.1 p.2 ∪ covered l := by
  ext i
  simp [covered]

@[simp] theorem covered_append : covered (left ++ right) = covered left ∪ covered right := by
  ext i
  simp [covered, or_and_right, exists_or]

theorem covered_singleton : covered [p] = Set.Icc p.1 p.2 := by simp

theorem Separated.nil : Separated [] := ⟨by simp, .nil⟩

theorem Separated.singleton (h : p.1 ≤ p.2) : Separated [p] := ⟨by simpa using h, by simp⟩

theorem separated_append : Separated (left ++ right) ↔
    Separated left ∧ Separated right ∧ ∀ p ∈ left, ∀ q ∈ right, p.2 + 1 < q.1 := by
  constructor
  · rintro ⟨hne, hgaps⟩
    rw [List.pairwise_append] at hgaps
    exact ⟨⟨fun p hp => hne p (by simp [hp]), hgaps.1⟩, ⟨fun p hp => hne p (by simp [hp]), hgaps.2.1⟩, hgaps.2.2⟩
  · rintro ⟨hleft, hright, hcross⟩
    refine ⟨fun p hp => ?_, List.pairwise_append.mpr ⟨hleft.gaps, hright.gaps, hcross⟩⟩
    rcases List.mem_append.mp hp with hp | hp
    · exact hleft.nonempty p hp
    · exact hright.nonempty p hp

theorem separated_cons : Separated (p :: l) ↔ p.1 ≤ p.2 ∧ Separated l ∧ ∀ q ∈ l, p.2 + 1 < q.1 := by
  rw [← List.singleton_append, separated_append]
  constructor
  · rintro ⟨hp, hl, hcross⟩
    exact ⟨hp.nonempty p (by simp), hl, hcross p (by simp)⟩
  · rintro ⟨hp, hl, hcross⟩
    exact ⟨.singleton hp, hl, by simpa using hcross⟩

theorem Separated.starts (h : Separated l) : l.Pairwise fun p q => p.1 ≤ q.1 := by
  refine h.gaps.imp_of_mem fun hp _ hgap => ?_
  have := h.nonempty _ hp
  omega

theorem Separated.subset_covered_iff (h : Separated l) {start last : Nat} (hle : start ≤ last) :
    Set.Icc start last ⊆ covered l ↔ ∃ p ∈ l, p.1 ≤ start ∧ last ≤ p.2 := by
  constructor
  · intro hsub
    induction l with
    | nil => simpa using hsub (Set.left_mem_Icc.mpr hle)
    | cons p l ih =>
      obtain ⟨hp, hl, hgap⟩ := separated_cons.mp h
      by_cases hstart : start ≤ p.2
      · refine ⟨p, by simp, ?_, ?_⟩
        · obtain ⟨q, hq, hqs⟩ := hsub (Set.left_mem_Icc.mpr hle)
          rcases List.mem_cons.mp hq with rfl | hq
          · exact hqs.1
          · have := hgap q hq
            omega
        · -- the index past `p` is not covered
          by_contra hlast
          obtain ⟨q, hq, hqs⟩ := hsub (show p.2 + 1 ∈ Set.Icc start last from ⟨by omega, by omega⟩)
          rcases List.mem_cons.mp hq with rfl | hq
          · omega
          · have := hgap q hq
            omega
      · obtain ⟨q, hq, hqs⟩ := ih hl fun i hi => by
          obtain ⟨q, hq, hqs⟩ := hsub hi
          rcases List.mem_cons.mp hq with rfl | hq
          · have := hi.1
            omega
          · exact ⟨q, hq, hqs⟩
        exact ⟨q, by simp [hq], hqs⟩
  · rintro ⟨p, hp, hstart, hlast⟩ i ⟨hi, hi'⟩
    exact ⟨p, hp, by omega, by omega⟩

theorem Separated.covered_subset_iff (hleft : Separated left) (hright : Separated right) :
    covered left ⊆ covered right ↔ ∀ p ∈ left, ∃ q ∈ right, q.1 ≤ p.1 ∧ p.2 ≤ q.2 := by
  constructor
  · intro hsub p hp
    refine (hright.subset_covered_iff (hleft.nonempty p hp)).mp fun i hi => hsub ⟨p, hp, hi⟩
  · rintro h i ⟨p, hp, hi⟩
    obtain ⟨q, hq, hqs⟩ := h p hp
    exact ⟨q, hq, by omega, by omega⟩

/-- What the last interval that starts by `i` decides for the whole list. -/
theorem Separated.exists_last_iff {before after : List Interval} (h : Separated (before ++ after))
    (hbefore : ∀ p ∈ before, p.1 ≤ i) (hafter : ∀ p ∈ after, i < p.1) {last : Nat} (hle : i ≤ last) :
    (∃ p ∈ before.getLast?, last ≤ p.2) ↔ ∃ p ∈ before ++ after, p.1 ≤ i ∧ last ≤ p.2 := by
  constructor
  · rintro ⟨p, hp, hlast⟩
    have hmem := List.mem_of_getLast? hp
    exact ⟨p, by simp [hmem], hbefore p hmem, hlast⟩
  · rintro ⟨p, hp, hi, hlast⟩
    rcases List.mem_append.mp hp with hp | hp
    · rcases List.eq_nil_or_concat before with rfl | ⟨init, q, rfl⟩
      · cases hp
      · rw [List.concat_eq_append] at hp hbefore h ⊢
        refine ⟨q, by simp, ?_⟩
        rcases List.mem_append.mp hp with hp | hp
        · -- an interval before the last one ends before `i`
          have hgap := (separated_append.mp (separated_append.mp h).1).2.2 p hp q (by simp)
          have := hbefore q (by simp)
          omega
        · rwa [← List.mem_singleton.mp hp]
    · have := hafter p hp
      omega

end Interval

end Rumoca.Lib
