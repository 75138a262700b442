import Mathlib.Data.List.Basic
/-!
# Segments of a list

A list cut at every occurrence of a terminator, which belongs to no segment:
the segments that one ends, and the tail that none does. Cutting and joining
are inverse.
-/

namespace Rumoca.Lib

variable {α : Type} [DecidableEq α] {stop : α}

def segments (stop : α) : List α → List (List α) × List α
  | [] => ([], [])
  | a :: l =>
    if a = stop then ([] :: (segments stop l).1, (segments stop l).2)
    else
      match segments stop l with
      | ([], tail) => ([], a :: tail)
      | (s :: ss, tail) => ((a :: s) :: ss, tail)

def joinSegments (stop : α) (ss : List (List α)) (tail : List α) : List α :=
  ss.flatMap (· ++ [stop]) ++ tail

omit [DecidableEq α] in
theorem joinSegments_cons (s : List α) (ss : List (List α)) (tail : List α) :
    joinSegments stop (s :: ss) tail = s ++ stop :: joinSegments stop ss tail := by
  simp [joinSegments]

theorem segments_append_stop {s : List α} (h : stop ∉ s) (l : List α) :
    segments stop (s ++ stop :: l) = (s :: (segments stop l).1, (segments stop l).2) := by
  induction s with
  | nil => exact if_pos rfl
  | cons a s ih =>
    obtain ⟨hne, hs⟩ := List.ne_and_not_mem_of_not_mem_cons h
    rw [List.cons_append, segments, if_neg (Ne.symm hne), ih hs]

theorem segments_of_notMem {tail : List α} (h : stop ∉ tail) : segments stop tail = ([], tail) := by
  induction tail with
  | nil => rfl
  | cons a tail ih =>
    obtain ⟨hne, htail⟩ := List.ne_and_not_mem_of_not_mem_cons h
    rw [segments, if_neg (Ne.symm hne), ih htail]

theorem segments_joinSegments {ss : List (List α)} {tail : List α} (hss : ∀ s ∈ ss, stop ∉ s) (htail : stop ∉ tail) :
    segments stop (joinSegments stop ss tail) = (ss, tail) := by
  induction ss with
  | nil => exact segments_of_notMem htail
  | cons s ss ih =>
    rw [joinSegments_cons, segments_append_stop (hss s List.mem_cons_self),
      ih fun s hs => hss s (List.mem_cons_of_mem _ hs)]

theorem segments_spec (stop : α) (l : List α) :
    joinSegments stop (segments stop l).1 (segments stop l).2 = l ∧
      (∀ s ∈ (segments stop l).1, stop ∉ s) ∧ stop ∉ (segments stop l).2 := by
  induction l with
  | nil => exact ⟨rfl, fun s hs => absurd hs List.not_mem_nil, List.not_mem_nil⟩
  | cons a l ih =>
    obtain ⟨hjoin, hss, htail⟩ := ih
    unfold segments
    by_cases ha : a = stop
    · rw [if_pos ha]
      refine ⟨?_, ?_, htail⟩
      · rw [joinSegments_cons, hjoin, ha]
        rfl
      · rintro s (_ | ⟨_, hs⟩)
        · exact List.not_mem_nil
        · exact hss s hs
    · rw [if_neg ha]
      have hcons : ∀ {s : List α}, stop ∉ s → stop ∉ a :: s := List.not_mem_cons_of_ne_of_not_mem (Ne.symm ha)
      rcases hcut : segments stop l with ⟨_ | ⟨s, ss⟩, tail⟩
      · rw [hcut] at hjoin htail
        exact ⟨congrArg (a :: ·) hjoin, fun s hs => absurd hs List.not_mem_nil, hcons htail⟩
      · rw [hcut] at hjoin htail hss
        refine ⟨?_, ?_, htail⟩
        · rw [← hjoin, joinSegments_cons, joinSegments_cons]
          rfl
        · rintro s' (_ | ⟨_, hs'⟩)
          · exact hcons (hss s List.mem_cons_self)
          · exact hss s' (List.mem_cons_of_mem _ hs')

end Rumoca.Lib
