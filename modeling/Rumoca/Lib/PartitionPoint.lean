import Mathlib.Data.List.Sort
/-!
# The partition point of a sorted list

The number of entries before the first one that fails a test, as `partition_point`
counts them on a list that the test partitions, and what a binary search finds there.
-/

namespace Rumoca.Lib

theorem pairwise_sortByKey {α β : Type} [LinearOrder β] (key : α → β) (l : List α) :
    (l.insertionSort fun a b => key a ≤ key b).Pairwise fun a b => key a ≤ key b := by
  have : Std.Total fun a b : α => key a ≤ key b := ⟨fun a b => le_total _ _⟩
  have : IsTrans α fun a b => key a ≤ key b := ⟨fun _ _ _ => le_trans⟩
  exact List.pairwise_insertionSort _ l

/-- `partition_point` on a list that the predicate partitions. -/
def partitionPoint {α : Type} (p : α → Bool) (l : List α) : Nat := (l.takeWhile p).length

theorem partitionPoint_append {α : Type} {p : α → Bool} {before : List α} (h : ∀ a ∈ before, p a) (after : List α) :
    partitionPoint p (before ++ after) = before.length + partitionPoint p after := by
  unfold partitionPoint
  rw [List.takeWhile_append_of_pos h, List.length_append]

theorem partitionPoint_of_not {α : Type} {p : α → Bool} {l : List α} (h : ∀ a ∈ l.head?, p a = false) :
    partitionPoint p l = 0 := by
  cases l with
  | nil => rfl
  | cons a l => simp [partitionPoint, h a rfl]

theorem exists_partition {α : Type} {p : α → Bool} {l : List α} (h : l.Pairwise fun a b => p b → p a) :
    ∃ before after, l = before ++ after ∧ partitionPoint p l = before.length ∧ (∀ a ∈ before, p a) ∧
      ∀ a ∈ after, p a = false := by
  induction l with
  | nil => exact ⟨[], [], rfl, rfl, by simp, by simp⟩
  | cons a l ih =>
    by_cases ha : p a
    · obtain ⟨before, after, rfl, hpoint, hbefore, hafter⟩ := ih h.of_cons
      exact ⟨a :: before, after, rfl, by simpa [partitionPoint, ha] using hpoint, by simpa [ha] using hbefore, hafter⟩
    · refine ⟨[], a :: l, rfl, by simp [partitionPoint, ha], by simp, ?_⟩
      intro b hb
      obtain rfl | hb := List.mem_cons.mp hb
      · simpa using ha
      · exact Bool.eq_false_iff.mpr fun hpb => ha (List.rel_of_pairwise_cons h hb hpb)

section
variable {K : Type} [LinearOrder K]

theorem exists_cut {keys : List K} (h : keys.Pairwise (· < ·)) (query : K) :
    ∃ before after, keys = before ++ after ∧ (∀ d ∈ before, d < query) ∧ ∀ d ∈ after, query ≤ d := by
  induction keys with
  | nil => exact ⟨[], [], rfl, by simp, by simp⟩
  | cons d rest ih =>
    by_cases hd : d < query
    · obtain ⟨before, after, rfl, hb, ha⟩ := ih h.of_cons
      exact ⟨d :: before, after, rfl, by simpa [hd] using hb, ha⟩
    · refine ⟨[], d :: rest, rfl, by simp, ?_⟩
      intro e he
      obtain rfl | he := List.mem_cons.mp he
      · exact not_lt.mp hd
      · exact (not_lt.mp hd).trans (List.rel_of_pairwise_cons h he).le

theorem partitionPoint_cut {before after : List K} {query : K} (hb : ∀ d ∈ before, d < query)
    (ha : ∀ d ∈ after, query ≤ d) : partitionPoint (fun d => decide (d < query)) (before ++ after) = before.length := by
  rw [partitionPoint_append (by simpa using hb), partitionPoint_of_not, Nat.add_zero]
  intro d hd
  simpa using ha d (List.mem_of_mem_head? hd)

theorem getElem?_partitionPoint {keys : List K} (h : keys.Pairwise (· < ·)) (query : K) :
    keys[partitionPoint (fun d => decide (d < query)) keys]? = some query ↔ query ∈ keys := by
  obtain ⟨before, after, rfl, hb, ha⟩ := exists_cut h query
  rw [partitionPoint_cut hb ha, List.getElem?_append_right le_rfl, Nat.sub_self, ← List.head?_eq_getElem?, List.mem_append]
  constructor
  · exact fun hq => .inr (List.mem_of_mem_head? hq)
  · rintro (hq | hq)
    · exact absurd (hb _ hq) (lt_irrefl _)
    · cases after with
      | nil => cases hq
      | cons d after =>
        obtain rfl | hq := List.mem_cons.mp hq
        · rfl
        · exact absurd (List.rel_of_pairwise_cons (List.pairwise_append.mp h).2.1 hq) (ha d (by simp)).not_gt

/-- `binary_search`: the index of the query, when it is there. -/
def binarySearch (keys : List K) (query : K) : Option Nat :=
  let index := partitionPoint (fun d => decide (d < query)) keys
  if keys[index]? = some query then some index else none

theorem binarySearch_eq_some {keys : List K} (h : keys.Pairwise (· < ·)) {query : K} {index : Nat} :
    binarySearch keys query = some index ↔ keys[index]? = some query := by
  unfold binarySearch
  dsimp only
  constructor
  · intro hs
    split at hs
    · next hq => exact Option.some.inj hs ▸ hq
    · cases hs
  · intro hi
    have hq := (getElem?_partitionPoint h query).mpr (List.mem_of_getElem? hi)
    simp only [if_pos hq]
    obtain ⟨hlt, hv⟩ := List.getElem?_eq_some_iff.mp hi
    obtain ⟨hlt', hv'⟩ := List.getElem?_eq_some_iff.mp hq
    have hnodup : keys.Nodup := h.imp fun h => h.ne
    exact congrArg some (hnodup.getElem_inj_iff.mp (hv'.trans hv.symm))

theorem isSome_binarySearch {keys : List K} (h : keys.Pairwise (· < ·)) (query : K) :
    (binarySearch keys query).isSome ↔ query ∈ keys := by
  rw [Option.isSome_iff_exists]
  simp only [binarySearch_eq_some h]
  exact List.mem_iff_getElem?.symm

end

end Rumoca.Lib
