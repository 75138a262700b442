import Mathlib.Data.List.Basic
/-!
# Lines of a list

A list cut after each occurrence of a terminator: every line ends with one,
but for a nonempty tail without.
-/

namespace Rumoca.Lib

variable {α : Type} [DecidableEq α] {stop : α}

def cutLine (stop : α) : List α → List α × List α
  | [] => ([], [])
  | a :: l => if a = stop then ([a], l) else ((a :: (cutLine stop l).1), (cutLine stop l).2)

theorem cutLine_append_of_notMem {xs : List α} (h : stop ∉ xs) (ys : List α) :
    cutLine stop (xs ++ ys) = (xs ++ (cutLine stop ys).1, (cutLine stop ys).2) := by
  induction xs with
  | nil => rfl
  | cons a xs ih =>
    obtain ⟨hne, hxs⟩ := List.ne_and_not_mem_of_not_mem_cons h
    rw [List.cons_append, cutLine, if_neg (Ne.symm hne), ih hxs]
    rfl

theorem cutLine_stop {xs : List α} (h : stop ∉ xs) (ys : List α) :
    cutLine stop (xs ++ stop :: ys) = (xs ++ [stop], ys) := by
  rw [cutLine_append_of_notMem h, cutLine, if_pos rfl]

theorem idxOf?_split {l : List α} {position : Nat} (h : l.idxOf? stop = some position) :
    ∃ body rest, stop ∉ body ∧ l = body ++ stop :: rest ∧ position = body.length := by
  induction l generalizing position with
  | nil => cases h
  | cons a l ih =>
    rw [List.idxOf?_cons] at h
    by_cases ha : a = stop
    · subst ha
      exact ⟨[], l, List.not_mem_nil, rfl, by simpa using h.symm⟩
    · rw [if_neg (by simpa using ha)] at h
      obtain ⟨before, hbefore, rfl⟩ := Option.map_eq_some_iff.1 h
      obtain ⟨body, rest, hbody, rfl, rfl⟩ := ih hbefore
      exact ⟨a :: body, rest, List.not_mem_cons_of_ne_of_not_mem (Ne.symm ha) hbody, rfl, rfl⟩

theorem cutLine_cases (stop : α) (l : List α) :
    (∃ body rest, stop ∉ body ∧ l = body ++ stop :: rest ∧ cutLine stop l = (body ++ [stop], rest)) ∨
      (stop ∉ l ∧ cutLine stop l = (l, [])) := by
  induction l with
  | nil => exact .inr ⟨List.not_mem_nil, rfl⟩
  | cons a l ih =>
    unfold cutLine
    by_cases ha : a = stop
    · subst ha
      exact .inl ⟨[], l, List.not_mem_nil, rfl, if_pos rfl⟩
    · rw [if_neg ha]
      rcases ih with ⟨body, rest, hbody, rfl, hcut⟩ | ⟨hl, hcut⟩
      · exact .inl ⟨a :: body, rest, List.not_mem_cons_of_ne_of_not_mem (Ne.symm ha) hbody, rfl, by rw [hcut]; rfl⟩
      · exact .inr ⟨List.not_mem_cons_of_ne_of_not_mem (Ne.symm ha) hl, by rw [hcut]⟩

theorem cutLine_append (stop : α) (l : List α) : (cutLine stop l).1 ++ (cutLine stop l).2 = l := by
  rcases cutLine_cases stop l with ⟨body, rest, -, hl, hcut⟩ | ⟨-, hcut⟩
  · rw [hcut, hl, List.append_assoc]
    rfl
  · rw [hcut, List.append_nil]

theorem cutLine_rest_length (stop : α) {l : List α} (h : l ≠ []) : (cutLine stop l).2.length < l.length := by
  rcases cutLine_cases stop l with ⟨body, rest, -, hl, hcut⟩ | ⟨-, hcut⟩
  · rw [hcut, hl, List.length_append, List.length_cons]
    exact Nat.lt_of_lt_of_le (Nat.lt_succ_self _) (Nat.le_add_left _ _)
  · rw [hcut]
    exact List.length_pos_iff.2 h

theorem cutLine_drop (stop : α) (l : List α) (count : Nat) (h : count < (cutLine stop l).1.length) :
    (cutLine stop (l.drop count)).2 = (cutLine stop l).2 := by
  rcases cutLine_cases stop l with ⟨body, rest, hbody, hl, hcut⟩ | ⟨hnot, hcut⟩
  · rw [hcut] at h ⊢
    have hle : count ≤ body.length := by
      simp only [List.length_append, List.length_singleton] at h
      omega
    rw [hl, List.drop_append_of_le_length hle, cutLine_stop fun hmem => hbody (List.mem_of_mem_drop hmem)]
  · rw [hcut]
    rcases cutLine_cases stop (l.drop count) with ⟨body, rest, -, hl, -⟩ | ⟨-, hcut'⟩
    · exact absurd (List.mem_of_mem_drop (show stop ∈ l.drop count by rw [hl]; simp)) hnot
    · rw [hcut']

def linesWithRest (stop : α) (l : List α) : List (List α × List α) :=
  if h : l = [] then []
  else
    have := cutLine_rest_length stop h
    cutLine stop l :: linesWithRest stop (cutLine stop l).2
termination_by l.length

theorem linesWithRest_nil : linesWithRest stop [] = [] := by
  unfold linesWithRest
  rfl

theorem linesWithRest_of_ne_nil {l : List α} (h : l ≠ []) :
    linesWithRest stop l = cutLine stop l :: linesWithRest stop (cutLine stop l).2 := by
  conv_lhs => unfold linesWithRest
  rw [dif_neg h]

end Rumoca.Lib
