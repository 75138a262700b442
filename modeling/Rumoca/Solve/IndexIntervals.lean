import Mathlib.Data.List.Sort
import Rumoca.Lib.Intervals
import Rumoca.Lib.Loop
import Rumoca.Lib.PartitionPoint
import Rumoca.Machine
/-!
# Index sets as intervals

The set of indices that dependency inventories keep: inclusive intervals in
ascending order, none touching the next. A value is built from lists of
indices, ranges and single indices by insertion, union and intersection; its
queries are exact because no operation leaves two intervals that touch.
-/

namespace Rumoca.Solve

open Rumoca.Lib

/-- `saturating_add(1)`. -/
def saturatingSucc (n : Nat) : Nat := min (n + 1) (usizeLimit - 1)

/-- The intervals of `IndexIntervals`, by their first and last index. -/
abbrev IndexIntervals := List (Nat × Nat)

namespace IndexIntervals

open Rumoca.Lib.Interval

/-! ## The operations -/

/-- `start..end` of the source. -/
def range (start stop : Nat) : IndexIntervals := if start < stop then [(start, stop - 1)] else []

def singleton (index : Nat) : IndexIntervals := [(index, index)]

/-- One index of the sorted sequence of `of`. -/
def pushIndex (intervals : IndexIntervals) (index : Nat) : IndexIntervals :=
  match intervals.getLast? with
  | some (start, last) =>
    if index ≤ last then intervals
    else if checkedUsize (last + 1) = some index then intervals.dropLast ++ [(start, index)]
    else intervals ++ [(index, index)]
  | none => intervals ++ [(index, index)]

/-- The set of `indices`, in any order. -/
def of (indices : List Nat) : IndexIntervals := (indices.insertionSort (· ≤ ·)).foldl pushIndex []

def len (s : IndexIntervals) : Nat :=
  s.foldl (fun count (start, last) => min (count + saturatingSucc (last - start)) (usizeLimit - 1)) 0

def iter (s : IndexIntervals) : List Nat := s.flatMap fun p => List.range' p.1 (p.2 + 1 - p.1)

/-- The number of intervals that start by `index`. -/
def intervalsUpTo (s : IndexIntervals) (index : Nat) : Nat := partitionPoint (fun p => decide (p.1 ≤ index)) s

/-- The position of the interval that could hold `index`. -/
def candidate (s : IndexIntervals) (index : Nat) : Option Nat :=
  match intervalsUpTo s index with
  | 0 => none
  | position + 1 => some position

/-- The interval at the candidate position, which is in bounds: `candidate_lt`. -/
def candidateInterval (s : IndexIntervals) (index : Nat) : Option (Nat × Nat) :=
  (candidate s index).bind fun position => s[position]?

def contains (s : IndexIntervals) (index : Nat) : Bool := (candidateInterval s index).any fun p => decide (index ≤ p.2)

/-- Whether every index of `s` is in `other`. -/
def isSubset (s other : IndexIntervals) : Bool :=
  s.all fun (start, last) => (candidateInterval other start).any fun p => decide (last ≤ p.2)

def insert (s : IndexIntervals) (index : Nat) : IndexIntervals :=
  let after := intervalsUpTo s index
  let before := candidateInterval s index
  if before.any (fun p => decide (index ≤ p.2)) then s
  else
    let joinsBefore := before.any fun p => checkedUsize (p.2 + 1) = some index
    let joinsAfter := s[after]?.any fun p => checkedUsize (index + 1) = some p.1
    match joinsBefore, joinsAfter with
    | true, true => (s.modify (after - 1) fun p => (p.1, (s.getD after p).2)).eraseIdx after
    | true, false => s.modify (after - 1) fun p => (p.1, index)
    | false, true => s.modify after fun p => (index, p.2)
    | false, false => s.insertIdx after (index, index)

/-- One interval of the merge of `union`. -/
def pushInterval (merged : IndexIntervals) (interval : Nat × Nat) : IndexIntervals :=
  match merged.getLast? with
  | some (start, last) =>
    if interval.1 ≤ saturatingSucc last then merged.dropLast ++ [(start, max last interval.2)]
    else merged ++ [interval]
  | none => merged ++ [interval]

/-- Both lists in order of start, an interval of `s` before one of `other` that starts where it does. -/
def union (s other : IndexIntervals) : IndexIntervals :=
  (List.merge s other fun l r => decide (l.1 ≤ r.1)).foldl pushInterval []

/-- What one turn of `intersection` pushes. -/
def overlap (l r : Nat × Nat) : IndexIntervals :=
  if max l.1 r.1 ≤ min l.2 r.2 then [(max l.1 r.1, min l.2 r.2)] else []

/-- The indices of both sets. Each turn leaves the interval that ends first behind. -/
def intersection : IndexIntervals → IndexIntervals → IndexIntervals
  | l :: left, r :: right =>
    if l.2 ≤ r.2 then overlap l r ++ intersection left (r :: right) else overlap l r ++ intersection (l :: left) right
  | [], _ => []
  | _ :: _, [] => []
termination_by left right => left.length + right.length

/-! ## Canonical sets -/

/-- Sorted nonempty intervals of `usize` that neither overlap nor touch. -/
structure Canonical (s : IndexIntervals) : Prop where
  separated : Separated s
  bounded : ∀ p ∈ s, p.2 < usizeLimit

variable {s left right before after : IndexIntervals} {p q : Nat × Nat} {index : Nat}

theorem canonical_append : Canonical (left ++ right) ↔
    Canonical left ∧ Canonical right ∧ ∀ p ∈ left, ∀ q ∈ right, p.2 + 1 < q.1 := by
  constructor
  · rintro ⟨hsep, hbound⟩
    obtain ⟨hl, hr, hcross⟩ := separated_append.mp hsep
    exact ⟨⟨hl, fun p hp => hbound p (by simp [hp])⟩, ⟨hr, fun p hp => hbound p (by simp [hp])⟩, hcross⟩
  · rintro ⟨hl, hr, hcross⟩
    refine ⟨separated_append.mpr ⟨hl.separated, hr.separated, hcross⟩, fun p hp => ?_⟩
    rcases List.mem_append.mp hp with hp | hp
    · exact hl.bounded p hp
    · exact hr.bounded p hp

theorem canonical_around : Canonical (left ++ p :: right) ↔ Canonical left ∧ Canonical right ∧ p.1 ≤ p.2 ∧
    p.2 < usizeLimit ∧ (∀ l ∈ left, l.2 + 1 < p.1) ∧ ∀ r ∈ right, p.2 + 1 < r.1 := by
  constructor
  · intro h
    obtain ⟨hl, hpr, hcross⟩ := canonical_append.mp h
    obtain ⟨hle, -, hgap⟩ := separated_cons.mp hpr.separated
    exact ⟨hl, (canonical_append.mp (show Canonical ([p] ++ right) from hpr)).2.1, hle, hpr.bounded p (by simp),
      fun l hl => hcross l hl p (by simp), hgap⟩
  · rintro ⟨hl, hr, hle, hlt, hbefore, hafter⟩
    refine canonical_append.mpr ⟨hl, ⟨separated_cons.mpr ⟨hle, hr.separated, hafter⟩, ?_⟩, fun l hl q hq => ?_⟩
    · simpa [hlt] using hr.bounded
    · have := hbefore l hl
      rcases List.mem_cons.mp hq with rfl | hq
      · exact this
      · have := hafter q hq
        omega

theorem Canonical.nil : Canonical [] := ⟨.nil, by simp⟩

theorem canonical_singleton (hle : p.1 ≤ p.2) (hlt : p.2 < usizeLimit) : Canonical [p] :=
  ⟨.singleton hle, by simpa using hlt⟩

theorem Canonical.of_append_left (h : Canonical (left ++ right)) : Canonical left := (canonical_append.mp h).1

theorem Canonical.of_append_right (h : Canonical (left ++ right)) : Canonical right := (canonical_append.mp h).2.1

/-! ## Queries -/

theorem Canonical.exists_cut (h : Canonical s) (index : Nat) :
    ∃ before after, s = before ++ after ∧ intervalsUpTo s index = before.length ∧
      candidateInterval s index = before.getLast? ∧ (∀ p ∈ before, p.1 ≤ index) ∧ ∀ p ∈ after, index < p.1 := by
  obtain ⟨before, after, rfl, hpoint, hbefore, hafter⟩ := exists_partition
    (p := fun p : Nat × Nat => decide (p.1 ≤ index)) (h.separated.starts.imp fun hpq hq => by simp_all; omega)
  refine ⟨before, after, rfl, hpoint, ?_, by simpa using hbefore, by simpa using hafter⟩
  simp only [candidateInterval, candidate, intervalsUpTo, hpoint]
  rcases List.eq_nil_or_concat before with rfl | ⟨init, p, rfl⟩
  · rfl
  · simp

theorem Canonical.candidateInterval_any (h : Canonical s) {last : Nat} (hle : index ≤ last) :
    ((candidateInterval s index).any fun p => decide (last ≤ p.2)) = true ↔ ∃ p ∈ s, p.1 ≤ index ∧ last ≤ p.2 := by
  obtain ⟨before, after, rfl, -, hcandidate, hbefore, hafter⟩ := h.exists_cut index
  rw [hcandidate, ← h.separated.exists_last_iff hbefore hafter hle, Option.any_eq_true]
  simp

theorem Canonical.contains_iff (h : Canonical s) (index : Nat) : contains s index = true ↔ index ∈ covered s :=
  h.candidateInterval_any le_rfl

theorem Canonical.isSubset_iff (hs : Canonical s) {other : IndexIntervals} (ho : Canonical other) :
    isSubset s other = true ↔ covered s ⊆ covered other := by
  rw [hs.separated.covered_subset_iff ho.separated, isSubset, List.all_eq_true]
  exact forall₂_congr fun p hp => ho.candidateInterval_any (hs.separated.nonempty p hp)

/-! ## Merging in order of start -/

theorem pushInterval_spec {merged : IndexIntervals} (h : Canonical merged) (hle : p.1 ≤ p.2) (hlt : p.2 < usizeLimit)
    (hstart : ∀ q ∈ merged, q.1 ≤ p.1) :
    Canonical (pushInterval merged p) ∧ covered (pushInterval merged p) = covered merged ∪ Set.Icc p.1 p.2 ∧
      ∀ q ∈ pushInterval merged p, q.1 ≤ p.1 := by
  rcases List.eq_nil_or_concat merged with rfl | ⟨init, q, rfl⟩
  · exact ⟨canonical_singleton hle hlt, by simp [pushInterval], by simp [pushInterval]⟩
  · rw [List.concat_eq_append] at h hstart ⊢
    obtain ⟨hinit, hq, hcross⟩ := canonical_append.mp h
    have hqne := hq.separated.nonempty q (by simp)
    have hqlt := hq.bounded q (by simp)
    have hqstart := hstart q (by simp)
    simp only [pushInterval, List.getLast?_append, List.getLast?_singleton, Option.some_or, List.dropLast_concat]
    split
    · next htouch =>
      unfold saturatingSucc at htouch
      refine ⟨canonical_append.mpr ⟨hinit, canonical_singleton (by simp; omega) (by simp; omega), ?_⟩, ?_, ?_⟩
      · exact fun r hr s hs => List.mem_singleton.mp hs ▸ hcross r hr q (by simp)
      · ext i
        simp only [covered_append, covered_singleton, Set.mem_union, Set.mem_Icc, le_max_iff, or_assoc]
        exact or_congr_right (by omega)
      · intro r hr
        rcases List.mem_append.mp hr with hr | hr
        · exact hstart r (by simp [hr])
        · exact List.mem_singleton.mp hr ▸ hqstart
    · next hgap =>
      rw [saturatingSucc] at hgap
      refine ⟨canonical_append.mpr ⟨h, canonical_singleton hle hlt, ?_⟩, by simp [Set.union_assoc], ?_⟩
      · intro r hr s hs
        obtain rfl := List.mem_singleton.mp hs
        rcases List.mem_append.mp hr with hr | hr
        · have := hcross r hr q (by simp)
          omega
        · obtain rfl := List.mem_singleton.mp hr
          omega
      · intro r hr
        rcases List.mem_append.mp hr with hr | hr
        · exact hstart r hr
        · exact le_of_eq (congrArg Prod.fst (List.mem_singleton.mp hr))

theorem foldl_pushInterval_spec {pieces : List (Nat × Nat)} (hsorted : pieces.Pairwise fun p q => p.1 ≤ q.1)
    (hpieces : ∀ p ∈ pieces, p.1 ≤ p.2 ∧ p.2 < usizeLimit) :
    Canonical (pieces.foldl pushInterval []) ∧ covered (pieces.foldl pushInterval []) = covered pieces := by
  obtain ⟨hcanonical, hcovered, -⟩ := foldl_inv (f := pushInterval) (l := pieces) (s := [])
    (fun passed merged => Canonical merged ∧ covered merged = covered passed ∧
      ∀ q ∈ merged, ∃ p ∈ passed, q.1 ≤ p.1)
    (fun passed p rest merged hl ⟨hcanonical, hcovered, hstarts⟩ => by
      have hp := hpieces p (by rw [hl]; simp)
      obtain ⟨hcanonical', hcovered', hstarts'⟩ := pushInterval_spec hcanonical hp.1 hp.2 fun q hq => by
        obtain ⟨p', hp', hqp⟩ := hstarts q hq
        rw [hl] at hsorted
        exact hqp.trans ((List.pairwise_append.mp hsorted).2.2 p' hp' p (by simp))
      refine ⟨hcanonical', by rw [hcovered', hcovered, covered_append, covered_singleton], fun q hq => ?_⟩
      exact ⟨p, by simp, hstarts' q hq⟩)
    ⟨.nil, rfl, by simp⟩
  exact ⟨hcanonical, hcovered⟩

theorem union_spec (hl : Canonical left) (hr : Canonical right) :
    Canonical (union left right) ∧ covered (union left right) = covered left ∪ covered right := by
  have hmem : ∀ p : Nat × Nat, p ∈ List.merge left right (fun l r => decide (l.1 ≤ r.1)) ↔ p ∈ left ∨ p ∈ right :=
    fun p => List.mem_merge
  have hsorted : (List.merge left right fun l r => decide (l.1 ≤ r.1)).Pairwise fun p q => p.1 ≤ q.1 :=
    (List.pairwise_merge (fun a b c => by simp; omega) (fun a b => by simp; omega) left right
      (hl.separated.starts.imp (by simp)) (hr.separated.starts.imp (by simp))).imp (by simp)
  obtain ⟨hcanonical, hcovered⟩ := foldl_pushInterval_spec hsorted fun p hp => by
    rcases (hmem p).mp hp with hp | hp
    · exact ⟨hl.separated.nonempty p hp, hl.bounded p hp⟩
    · exact ⟨hr.separated.nonempty p hp, hr.bounded p hp⟩
  refine ⟨hcanonical, hcovered.trans ?_⟩
  ext i
  simp only [covered, hmem, Set.mem_ofPred_eq, Set.mem_union, or_and_right, exists_or]

theorem pushIndex_eq {s : IndexIntervals} (h : Canonical s) (hle : ∀ i ∈ covered s, i ≤ index)
    (hlt : index < usizeLimit) : pushIndex s index = pushInterval s (index, index) := by
  rcases List.eq_nil_or_concat s with rfl | ⟨init, q, rfl⟩
  · rfl
  · rw [List.concat_eq_append] at h hle ⊢
    have hqne := h.separated.nonempty q (by simp)
    have hq : q.2 ≤ index := hle q.2 ⟨q, by simp, hqne, le_rfl⟩
    simp only [pushIndex, pushInterval, List.getLast?_append, List.getLast?_singleton, Option.some_or,
      List.dropLast_concat, checkedUsize_eq_some, saturatingSucc]
    by_cases heq : q.2 = index
    · rw [if_pos heq.ge, if_pos (by omega), max_eq_left heq.ge]
    · rw [if_neg (by omega)]
      by_cases hnext : q.2 + 1 = index
      · rw [if_pos (by omega), if_pos (by omega), max_eq_right hq]
      · rw [if_neg (by omega), if_neg (by omega)]

theorem of_spec {indices : List Nat} (h : ∀ i ∈ indices, i < usizeLimit) :
    Canonical (of indices) ∧ covered (of indices) = {i | i ∈ indices} := by
  have hsorted := List.pairwise_insertionSort (· ≤ ·) indices
  obtain ⟨hcanonical, hcovered⟩ := foldl_inv (f := pushIndex) (l := indices.insertionSort (· ≤ ·)) (s := [])
    (fun passed s => Canonical s ∧ covered s = {i | i ∈ passed})
    (fun passed index rest s hl ⟨hcanonical, hcovered⟩ => by
      rw [hl] at hsorted
      have hle : ∀ i ∈ covered s, i ≤ index := fun i hi =>
        (List.pairwise_append.mp hsorted).2.2 i (by rw [hcovered] at hi; exact hi) index (by simp)
      have hlt : index < usizeLimit := h index ((List.mem_insertionSort (· ≤ ·)).mp (by rw [hl]; simp))
      obtain ⟨hcanonical', hcovered', -⟩ := pushInterval_spec (p := (index, index)) hcanonical le_rfl hlt fun q hq =>
        hle q.1 ⟨q, hq, le_rfl, hcanonical.separated.nonempty q hq⟩
      rw [pushIndex_eq hcanonical hle hlt]
      refine ⟨hcanonical', hcovered'.trans ?_⟩
      ext i
      simp [hcovered, or_comm])
    ⟨.nil, by simp⟩
  refine ⟨hcanonical, hcovered.trans ?_⟩
  ext i
  simp

/-! ## One more index -/

theorem modify_at {α : Type} (f : α → α) (init rest : List α) (a : α) :
    (init ++ a :: rest).modify init.length f = init ++ f a :: rest := by
  induction init with
  | nil => rfl
  | cons b init ih => simpa [List.modify] using ih

theorem insertIdx_at {α : Type} (init rest : List α) (a : α) :
    (init ++ rest).insertIdx init.length a = init ++ a :: rest := by
  induction init with
  | nil => simp
  | cons b init ih => simpa using ih

/-- The four ways that `insert` changes a set, by what is before and after the index. -/
theorem insert_cases (h : Canonical s) (hlt : index < usizeLimit) :
    (index ∈ covered s ∧ insert s index = s) ∨
    (∃ init p q rest, s = init ++ [p] ++ q :: rest ∧ p.2 + 1 = index ∧ index + 1 = q.1 ∧
      insert s index = init ++ [(p.1, q.2)] ++ rest) ∨
    (∃ init p rest, s = init ++ [p] ++ rest ∧ p.2 + 1 = index ∧ (∀ q ∈ rest, index + 1 < q.1) ∧
      insert s index = init ++ [(p.1, index)] ++ rest) ∨
    (∃ init q rest, s = init ++ q :: rest ∧ (∀ p ∈ init, p.2 + 1 < index) ∧ index + 1 = q.1 ∧
      insert s index = init ++ (index, q.2) :: rest) ∨
    (∃ before after, s = before ++ after ∧ (∀ p ∈ before, p.2 + 1 < index) ∧ (∀ q ∈ after, index + 1 < q.1) ∧
      insert s index = before ++ (index, index) :: after) := by
  obtain ⟨before, after, rfl, hpoint, hcandidate, hbefore, hafter⟩ := h.exists_cut index
  by_cases hmem : index ∈ covered (before ++ after)
  · exact .inl ⟨hmem, if_pos ((h.contains_iff index).mpr hmem)⟩
  have hends : ∀ p ∈ before, p.2 < index := fun p hp =>
    not_le.mp fun hle => hmem ⟨p, by simp [hp], hbefore p hp, hle⟩
  have hinsert : insert (before ++ after) index =
      match decide (∃ p ∈ before.getLast?, p.2 + 1 = index), decide (∃ q ∈ after.head?, index + 1 = q.1) with
      | true, true =>
        ((before ++ after).modify (before.length - 1) fun p => (p.1, ((before ++ after).getD before.length p).2)).eraseIdx
          before.length
      | true, false => (before ++ after).modify (before.length - 1) fun p => (p.1, index)
      | false, true => (before ++ after).modify before.length fun p => (index, p.2)
      | false, false => (before ++ after).insertIdx before.length (index, index) := by
    have hjoinsBefore : (before.getLast?.any fun p => decide (checkedUsize (p.2 + 1) = some index)) =
        decide (∃ p ∈ before.getLast?, p.2 + 1 = index) := by
      rw [Bool.eq_iff_iff, Option.any_eq_true, decide_eq_true_eq]
      refine exists_congr fun p => and_congr_right fun hp => ?_
      rw [decide_eq_true_eq, checkedUsize_eq_some]
      omega
    have hjoinsAfter : ((before ++ after)[before.length]?.any fun p => decide (checkedUsize (index + 1) = some p.1)) =
        decide (∃ q ∈ after.head?, index + 1 = q.1) := by
      rw [List.getElem?_append_right le_rfl, Nat.sub_self, ← List.head?_eq_getElem?, Bool.eq_iff_iff,
        Option.any_eq_true, decide_eq_true_eq]
      refine exists_congr fun q => and_congr_right fun hq => ?_
      have hqs : q ∈ before ++ after := by simp [List.mem_of_mem_head? hq]
      have := h.separated.nonempty q hqs
      have := h.bounded q hqs
      rw [decide_eq_true_eq, checkedUsize_eq_some]
      omega
    have hnot : ¬ (before.getLast?.any fun p => decide (index ≤ p.2)) = true := by
      rw [← hcandidate]
      exact fun hany => hmem ((h.contains_iff index).mp hany)
    simp only [insert, hpoint, hcandidate, hjoinsBefore, hjoinsAfter, if_neg hnot]
  have hgapAfter : (¬ ∃ q ∈ after.head?, index + 1 = q.1) → ∀ q ∈ after, index + 1 < q.1 := by
    intro hnone q hq
    cases after with
    | nil => cases hq
    | cons r rest =>
      have hr : index + 1 ≠ r.1 := fun heq => hnone ⟨r, rfl, heq⟩
      have hrlt := hafter r (by simp)
      obtain ⟨hrne, -, hgap⟩ := separated_cons.mp h.of_append_right.separated
      rcases List.mem_cons.mp hq with rfl | hq
      · omega
      · have := hgap q hq
        omega
  by_cases hjb : ∃ p ∈ before.getLast?, p.2 + 1 = index
  · obtain ⟨p, hp, hpi⟩ := hjb
    obtain ⟨init, rfl⟩ := List.getLast?_eq_some_iff.mp hp
    have hlen : (init ++ [p]).length - 1 = init.length := by simp
    rw [decide_eq_true ⟨p, hp, hpi⟩, hlen] at hinsert
    by_cases hja : ∃ q ∈ after.head?, index + 1 = q.1
    · obtain ⟨q, hq, hqi⟩ := hja
      obtain ⟨rest, rfl⟩ := List.head?_eq_some_iff.mp hq
      refine .inr (.inl ⟨init, p, q, rest, rfl, hpi, hqi, ?_⟩)
      rw [hinsert, decide_eq_true ⟨q, hq, hqi⟩, List.append_assoc, List.singleton_append]
      dsimp only
      rw [modify_at]
      simp [List.eraseIdx_append_of_length_le]
    · refine .inr (.inr (.inl ⟨init, p, after, rfl, hpi, hgapAfter hja, ?_⟩))
      rw [hinsert, decide_eq_false hja, List.append_assoc, List.singleton_append]
      dsimp only
      rw [modify_at, List.append_assoc, List.singleton_append]
  · have hgapBefore : ∀ p ∈ before, p.2 + 1 < index := by
      intro p hp
      rcases List.eq_nil_or_concat before with rfl | ⟨init, q, rfl⟩
      · cases hp
      · rw [List.concat_eq_append] at hp hjb h hends
        have hq : q.2 + 1 ≠ index := fun heq => hjb ⟨q, by simp, heq⟩
        have hqlt := hends q (by simp)
        rcases List.mem_append.mp hp with hp | hp
        · have := (canonical_append.mp h.of_append_left).2.2 p hp q (by simp)
          have := h.separated.nonempty q (by simp)
          omega
        · obtain rfl := List.mem_singleton.mp hp
          omega
    rw [decide_eq_false hjb] at hinsert
    by_cases hja : ∃ q ∈ after.head?, index + 1 = q.1
    · obtain ⟨q, hq, hqi⟩ := hja
      obtain ⟨rest, rfl⟩ := List.head?_eq_some_iff.mp hq
      refine .inr (.inr (.inr (.inl ⟨before, q, rest, rfl, hgapBefore, hqi, ?_⟩)))
      rw [hinsert, decide_eq_true ⟨q, hq, hqi⟩]
      exact modify_at ..
    · refine .inr (.inr (.inr (.inr ⟨before, after, rfl, hgapBefore, hgapAfter hja, ?_⟩)))
      rw [hinsert, decide_eq_false hja]
      exact insertIdx_at before after (index, index)

theorem insert_spec (h : Canonical s) (hlt : index < usizeLimit) :
    Canonical (insert s index) ∧ covered (insert s index) = Insert.insert index (covered s) := by
  rcases insert_cases h hlt with ⟨hmem, hs⟩ | ⟨init, p, q, rest, rfl, hp, hq, hs⟩ | ⟨init, p, rest, rfl, hp, hrest, hs⟩ |
    ⟨init, q, rest, rfl, hinit, hq, hs⟩ | ⟨before, after, rfl, hbefore, hafter, hs⟩
  · rw [hs]
    exact ⟨h, (Set.insert_eq_of_mem hmem).symm⟩
  · obtain ⟨hip, hrest, hqle, hqlt, hcross, hgap⟩ := canonical_around.mp h
    obtain ⟨hinit, -, hple, -, hcross', -⟩ := canonical_around.mp hip
    rw [hs, List.append_assoc, List.singleton_append]
    refine ⟨canonical_around.mpr ⟨hinit, hrest, by dsimp only; omega, hqlt, hcross', hgap⟩, ?_⟩
    ext i
    simp only [covered_append, covered_cons, covered_nil, Set.mem_union, Set.mem_Icc, Set.mem_insert_iff,
      Set.mem_empty_iff_false, or_false, or_assoc]
    rw [or_left_comm (a := i = index)]
    refine or_congr_right ?_
    rw [← or_assoc, ← or_assoc]
    exact or_congr_left (by omega)
  · rw [List.append_assoc, List.singleton_append] at h
    obtain ⟨hinit, hrest', hple, -, hcross, -⟩ := canonical_around.mp h
    rw [hs, List.append_assoc, List.singleton_append, List.append_assoc, List.singleton_append]
    refine ⟨canonical_around.mpr ⟨hinit, hrest', by dsimp only; omega, hlt, hcross, hrest⟩, ?_⟩
    ext i
    simp only [covered_append, covered_cons, Set.mem_union, Set.mem_Icc, Set.mem_insert_iff]
    rw [or_left_comm (a := i = index)]
    refine or_congr_right ?_
    rw [← or_assoc]
    exact or_congr_left (by omega)
  · obtain ⟨hinit', hrest, hqle, hqlt, -, hgap⟩ := canonical_around.mp h
    rw [hs]
    refine ⟨canonical_around.mpr ⟨hinit', hrest, by dsimp only; omega, hqlt, hinit, hgap⟩, ?_⟩
    ext i
    simp only [covered_append, covered_cons, Set.mem_union, Set.mem_Icc, Set.mem_insert_iff]
    rw [or_left_comm (a := i = index)]
    refine or_congr_right ?_
    rw [← or_assoc]
    exact or_congr_left (by omega)
  · obtain ⟨hb, ha, -⟩ := canonical_append.mp h
    rw [hs]
    refine ⟨canonical_around.mpr ⟨hb, ha, le_rfl, hlt, hbefore, hafter⟩, ?_⟩
    ext i
    simp only [covered_append, covered_cons, Set.mem_union, Set.mem_Icc, Set.mem_insert_iff]
    rw [or_left_comm (a := i = index)]
    exact or_congr_right (or_congr_left (by omega))

/-! ## Common indices -/

theorem mem_overlap {l r : Nat × Nat} : p ∈ overlap l r ↔ p = (max l.1 r.1, min l.2 r.2) ∧ max l.1 r.1 ≤ min l.2 r.2 := by
  unfold overlap
  split <;> simp_all

theorem covered_overlap (l r : Nat × Nat) : covered (overlap l r) = Set.Icc l.1 l.2 ∩ Set.Icc r.1 r.2 := by
  ext i
  simp only [covered, mem_overlap, Set.mem_ofPred_eq, Set.mem_inter_iff, Set.mem_Icc]
  constructor
  · rintro ⟨p, ⟨rfl, hle⟩, hi⟩
    dsimp only at hi
    omega
  · rintro ⟨hl, hr⟩
    exact ⟨_, ⟨rfl, by omega⟩, by dsimp only; omega⟩

theorem mem_overlap_bounds {l r : Nat × Nat} (h : p ∈ overlap l r) :
    (l.1 ≤ p.1 ∧ p.2 ≤ l.2) ∧ (r.1 ≤ p.1 ∧ p.2 ≤ r.2) ∧ p.1 ≤ p.2 := by
  obtain ⟨rfl, hle⟩ := mem_overlap.mp h
  dsimp only
  omega

theorem mem_intersection (left right : IndexIntervals) : ∀ p ∈ intersection left right,
    (∃ l ∈ left, l.1 ≤ p.1 ∧ p.2 ≤ l.2) ∧ ∃ r ∈ right, r.1 ≤ p.1 ∧ p.2 ≤ r.2 := by
  fun_induction intersection left right with
  | case1 l left r right hle ih =>
    intro p hp
    rcases List.mem_append.mp hp with hp | hp
    · obtain ⟨hl, hr, -⟩ := mem_overlap_bounds hp
      exact ⟨⟨l, by simp, hl⟩, r, by simp, hr⟩
    · obtain ⟨⟨l', hl', hls⟩, hr⟩ := ih p hp
      exact ⟨⟨l', by simp [hl'], hls⟩, hr⟩
  | case2 l left r right hle ih =>
    intro p hp
    rcases List.mem_append.mp hp with hp | hp
    · obtain ⟨hl, hr, -⟩ := mem_overlap_bounds hp
      exact ⟨⟨l, by simp, hl⟩, r, by simp, hr⟩
    · obtain ⟨hl, ⟨r', hr', hrs⟩⟩ := ih p hp
      exact ⟨hl, ⟨r', by simp [hr'], hrs⟩⟩
  | case3 => simp
  | case4 => simp

theorem canonical_overlap {l r : Nat × Nat} (hlt : l.2 < usizeLimit) : Canonical (overlap l r) := by
  unfold overlap
  split
  · next hle => exact canonical_singleton hle (by dsimp only; omega)
  · exact .nil

/-- An interval that ends by the first gap of a set has nothing in common with the rest. -/
theorem Icc_inter_covered {right : IndexIntervals} (h : ∀ r ∈ right, p.2 < r.1) :
    Set.Icc p.1 p.2 ∩ covered right = ∅ := by
  ext i
  simp only [Set.mem_inter_iff, Set.mem_Icc, Set.mem_empty_iff_false, iff_false, not_and]
  rintro ⟨-, hi⟩ ⟨r, hr, hri, -⟩
  have := h r hr
  omega

theorem intersection_spec (hl : Canonical left) (hr : Canonical right) :
    Canonical (intersection left right) ∧ covered (intersection left right) = covered left ∩ covered right := by
  fun_induction intersection left right with
  | case1 l left r right hle ih =>
    obtain ⟨-, hleft, -, hllt, -, hlgap⟩ := canonical_around.mp (show Canonical ([] ++ l :: left) from hl)
    obtain ⟨-, -, -, -, -, hrgap⟩ := canonical_around.mp (show Canonical ([] ++ r :: right) from hr)
    obtain ⟨hcanonical, hcovered⟩ := ih hleft hr
    refine ⟨canonical_append.mpr ⟨canonical_overlap hllt, hcanonical, fun p hp q hq => ?_⟩, ?_⟩
    · -- what follows starts with a later interval of the left set
      obtain ⟨⟨l', hl', hls⟩, -⟩ := mem_intersection left (r :: right) q hq
      have := (mem_overlap_bounds hp).1
      have := hlgap l' hl'
      omega
    · have hrest : Set.Icc l.1 l.2 ∩ covered right = ∅ := Icc_inter_covered fun r' hr' => by
        have := hrgap r' hr'
        omega
      rw [covered_append, covered_overlap, hcovered, covered_cons (p := l), covered_cons (p := r), Set.union_inter_distrib_right,
        Set.inter_union_distrib_left (s := Set.Icc l.1 l.2), hrest, Set.union_empty]
  | case2 l left r right hle ih =>
    obtain ⟨-, -, -, hllt, -, hlgap⟩ := canonical_around.mp (show Canonical ([] ++ l :: left) from hl)
    obtain ⟨-, hright, -, -, -, hrgap⟩ := canonical_around.mp (show Canonical ([] ++ r :: right) from hr)
    obtain ⟨hcanonical, hcovered⟩ := ih hl hright
    refine ⟨canonical_append.mpr ⟨canonical_overlap hllt, hcanonical, fun p hp q hq => ?_⟩, ?_⟩
    · obtain ⟨-, ⟨r', hr', hrs⟩⟩ := mem_intersection (l :: left) right q hq
      have := (mem_overlap_bounds hp).2.1
      have := hrgap r' hr'
      omega
    · have hrest : Set.Icc r.1 r.2 ∩ covered left = ∅ := Icc_inter_covered fun l' hl' => by
        have := hlgap l' hl'
        omega
      rw [covered_append, covered_overlap, hcovered, covered_cons (p := l), covered_cons (p := r), Set.inter_union_distrib_left,
        Set.union_inter_distrib_right (u := Set.Icc r.1 r.2), Set.inter_comm (covered left) (Set.Icc r.1 r.2), hrest,
        Set.union_empty]
  | case3 => exact ⟨.nil, by simp⟩
  | case4 => exact ⟨.nil, by simp⟩

end IndexIntervals

/-! ## What a set denotes -/

/-- A way to build a set from lists of indices, ranges and single indices. -/
inductive IndexSetTerm where
  | of (indices : List Nat)
  | range (start stop : Nat)
  | singleton (index : Nat)
  | insert (s : IndexSetTerm) (index : Nat)
  | union (s other : IndexSetTerm)
  | intersection (s other : IndexSetTerm)

namespace IndexSetTerm

def intervals : IndexSetTerm → IndexIntervals
  | of indices => .of indices
  | range start stop => .range start stop
  | singleton index => .singleton index
  | insert s index => s.intervals.insert index
  | union s other => s.intervals.union other.intervals
  | intersection s other => s.intervals.intersection other.intervals

def indices : IndexSetTerm → Set Nat
  | of indices => {i | i ∈ indices}
  | range start stop => Set.Ico start stop
  | singleton index => {index}
  | insert s index => Insert.insert index s.indices
  | union s other => s.indices ∪ other.indices
  | intersection s other => s.indices ∩ other.indices

/-- Every index of the term is a `usize`. -/
def InBounds : IndexSetTerm → Prop
  | of indices => ∀ i ∈ indices, i < usizeLimit
  | range _ stop => stop < usizeLimit
  | singleton index => index < usizeLimit
  | insert s index => s.InBounds ∧ index < usizeLimit
  | union s other => s.InBounds ∧ other.InBounds
  | intersection s other => s.InBounds ∧ other.InBounds

open IndexIntervals Rumoca.Lib.Interval

theorem intervals_spec {term : IndexSetTerm} (h : term.InBounds) :
    Canonical term.intervals ∧ covered term.intervals = term.indices := by
  induction term with
  | of indices => exact of_spec h
  | range start stop =>
    have hstop : stop < usizeLimit := h
    unfold intervals IndexIntervals.range
    split
    · refine ⟨canonical_singleton (by dsimp only; omega) (by dsimp only; omega), ?_⟩
      ext i
      simp only [covered_singleton, Set.mem_Icc, indices, Set.mem_Ico]
      omega
    · next hempty => exact ⟨.nil, covered_nil.trans (Set.Ico_eq_empty hempty).symm⟩
  | singleton index =>
    refine ⟨canonical_singleton le_rfl h, ?_⟩
    simp [intervals, IndexIntervals.singleton, indices]
  | insert s index ih =>
    obtain ⟨hcanonical, hcovered⟩ := ih h.1
    obtain ⟨hcanonical', hcovered'⟩ := insert_spec hcanonical h.2
    exact ⟨hcanonical', by rw [intervals, hcovered', hcovered]; rfl⟩
  | union s other ihs iho =>
    obtain ⟨hs, hscovered⟩ := ihs h.1
    obtain ⟨ho, hocovered⟩ := iho h.2
    obtain ⟨hcanonical, hcovered⟩ := union_spec hs ho
    exact ⟨hcanonical, by rw [intervals, hcovered, hscovered, hocovered]; rfl⟩
  | intersection s other ihs iho =>
    obtain ⟨hs, hscovered⟩ := ihs h.1
    obtain ⟨ho, hocovered⟩ := iho h.2
    obtain ⟨hcanonical, hcovered⟩ := intersection_spec hs ho
    exact ⟨hcanonical, by rw [intervals, hcovered, hscovered, hocovered]; rfl⟩

/-- Every set that the operations build is canonical, and its queries, unions and intersections are those of the
indices it stands for. -/
theorem intervals_exact {s other : IndexSetTerm} (hs : s.InBounds) (ho : other.InBounds) :
    Canonical s.intervals ∧ covered s.intervals = s.indices ∧
      (∀ index, s.intervals.contains index = true ↔ index ∈ s.indices) ∧
      (s.intervals.isSubset other.intervals = true ↔ s.indices ⊆ other.indices) ∧
      covered (s.intervals.union other.intervals) = s.indices ∪ other.indices ∧
      covered (s.intervals.intersection other.intervals) = s.indices ∩ other.indices := by
  obtain ⟨hcanonical, hcovered⟩ := intervals_spec hs
  obtain ⟨hcanonical', hcovered'⟩ := intervals_spec ho
  refine ⟨hcanonical, hcovered, fun index => ?_, ?_, ?_, ?_⟩
  · rw [hcanonical.contains_iff, hcovered]
  · rw [hcanonical.isSubset_iff hcanonical', hcovered, hcovered']
  · rw [(union_spec hcanonical hcanonical').2, hcovered, hcovered']
  · rw [(intersection_spec hcanonical hcanonical').2, hcovered, hcovered']

/-- The largest index, next to the one before it, within a range that ends there. -/
theorem intervals_exact_at_limit : Canonical ((of [2 ^ 64 - 2]).insert (2 ^ 64 - 1)).intervals ∧
    covered ((of [2 ^ 64 - 2]).insert (2 ^ 64 - 1)).intervals = ((of [2 ^ 64 - 2]).insert (2 ^ 64 - 1)).indices ∧
    (∀ index, ((of [2 ^ 64 - 2]).insert (2 ^ 64 - 1)).intervals.contains index = true ↔
      index ∈ ((of [2 ^ 64 - 2]).insert (2 ^ 64 - 1)).indices) ∧
    (((of [2 ^ 64 - 2]).insert (2 ^ 64 - 1)).intervals.isSubset ((range 5 (2 ^ 64 - 1)).intervals) = true ↔
      ((of [2 ^ 64 - 2]).insert (2 ^ 64 - 1)).indices ⊆ (range 5 (2 ^ 64 - 1)).indices) ∧
    covered (((of [2 ^ 64 - 2]).insert (2 ^ 64 - 1)).intervals.union (range 5 (2 ^ 64 - 1)).intervals) =
      ((of [2 ^ 64 - 2]).insert (2 ^ 64 - 1)).indices ∪ (range 5 (2 ^ 64 - 1)).indices ∧
    covered (((of [2 ^ 64 - 2]).insert (2 ^ 64 - 1)).intervals.intersection (range 5 (2 ^ 64 - 1)).intervals) =
      ((of [2 ^ 64 - 2]).insert (2 ^ 64 - 1)).indices ∩ (range 5 (2 ^ 64 - 1)).indices :=
  intervals_exact ⟨show ∀ i ∈ [2 ^ 64 - 2], i < usizeLimit by decide, by decide⟩ (show 2 ^ 64 - 1 < usizeLimit by decide)

end IndexSetTerm

end Rumoca.Solve
