import Mathlib.Algebra.Order.Ring.Int
import Mathlib.Data.Int.ModEq
import Mathlib.Tactic.SplitIfs
import Mathlib.Tactic.Ring
/-!
# Edit graphs

Paths from the origin of a grid that delete (one step along the first axis),
insert (one along the second) or keep (one along both, where the two entries
agree); a path's distance counts its deletions and insertions. The furthest
point a distance reaches on a diagonal comes from the furthest points of the
distance before on the two diagonals beside it, so a search only keeps one
number for each diagonal.
-/

namespace Rumoca.Lib.EditGraph

variable {same : Nat → Nat → Prop}

/-- A path of `d` deletions and insertions to the point `(x, y)`. -/
inductive Path (same : Nat → Nat → Prop) : (d x y : Nat) → Prop
  | start : Path same 0 0 0
  | keep {d x y : Nat} (path : Path same d x y) (agree : same x y) : Path same d (x + 1) (y + 1)
  | delete {d x y : Nat} (path : Path same d x y) : Path same (d + 1) (x + 1) y
  | insert {d x y : Nat} (path : Path same d x y) : Path same (d + 1) x (y + 1)

def Snake (same : Nat → Nat → Prop) (x y count : Nat) : Prop := ∀ i < count, same (x + i) (y + i)

theorem Path.snake {d x y count : Nat} (h : Path same d x y) (hsnake : Snake same x y count) :
    Path same d (x + count) (y + count) := by
  induction count with
  | zero => exact h
  | succ count ih => exact .keep (ih fun i hi => hsnake i (Nat.lt_succ_of_lt hi)) (hsnake count (Nat.lt_succ_self count))

theorem Path.deletes {d x y : Nat} (h : Path same d x y) (count : Nat) : Path same (d + count) (x + count) y := by
  induction count with
  | zero => exact h
  | succ count ih => exact .delete ih

theorem Path.inserts {d x y : Nat} (h : Path same d x y) (count : Nat) : Path same (d + count) x (y + count) := by
  induction count with
  | zero => exact h
  | succ count ih => exact .insert ih

theorem Path.diagonal {d x y : Nat} (h : Path same d x y) :
    -(d : Int) ≤ x - y ∧ (x : Int) - y ≤ d ∧ ((x : Int) - y - d) % 2 = 0 := by
  induction h with
  | start => simp
  | keep _ _ ih => push_cast; omega
  | delete _ ih => push_cast; omega
  | insert _ ih => push_cast; omega

theorem Path.zero {x y : Nat} (h : Path same 0 x y) : x = y ∧ Snake same 0 0 x := by
  obtain ⟨d, hd⟩ : ∃ d, d = 0 := ⟨0, rfl⟩
  rw [← hd] at h
  induction h with
  | start => exact ⟨rfl, fun i hi => absurd hi (Nat.not_lt_zero i)⟩
  | @keep d x y _ agree ih =>
    obtain ⟨rfl, hsnake⟩ := ih hd
    refine ⟨rfl, fun i hi => ?_⟩
    rw [Nat.zero_add]
    rcases Nat.lt_succ_iff_lt_or_eq.1 hi with hi | rfl
    · simpa using hsnake i hi
    · exact agree
  | delete => omega
  | insert => omega

theorem Path.last {d x y : Nat} (h : Path same (d + 1) x y) :
    ∃ x₀ y₀ count, Path same d x₀ y₀ ∧
      ((x = x₀ + 1 + count ∧ y = y₀ + count ∧ Snake same (x₀ + 1) y₀ count) ∨
        (x = x₀ + count ∧ y = y₀ + 1 + count ∧ Snake same x₀ (y₀ + 1) count)) := by
  obtain ⟨total, htotal⟩ : ∃ total, total = d + 1 := ⟨d + 1, rfl⟩
  rw [← htotal] at h
  have hgrow : ∀ {x y count : Nat}, Snake same x y count → same (x + count) (y + count) →
      Snake same x y (count + 1) := by
    intro x y count hsnake agree i hi
    rcases Nat.lt_succ_iff_lt_or_eq.1 hi with hi | rfl
    · exact hsnake i hi
    · exact agree
  induction h with
  | start => cases htotal
  | keep _ agree ih =>
    obtain ⟨x₀, y₀, count, hpath, ⟨rfl, rfl, hsnake⟩ | ⟨rfl, rfl, hsnake⟩⟩ := ih htotal
    · exact ⟨x₀, y₀, count + 1, hpath, .inl ⟨rfl, rfl, hgrow hsnake agree⟩⟩
    · exact ⟨x₀, y₀, count + 1, hpath, .inr ⟨rfl, rfl, hgrow hsnake agree⟩⟩
  | @delete d' x y path _ =>
    obtain rfl : d' = d := Nat.succ.inj htotal
    exact ⟨x, y, 0, path, .inl ⟨rfl, rfl, fun i hi => absurd hi (Nat.not_lt_zero i)⟩⟩
  | @insert d' x y path _ =>
    obtain rfl : d' = d := Nat.succ.inj htotal
    exact ⟨x, y, 0, path, .inr ⟨rfl, rfl, fun i hi => absurd hi (Nat.not_lt_zero i)⟩⟩

/-- Past the last entries a path only deletes or inserts, so it went through the corner with fewer of them. -/
theorem Path.corner {n m d x y : Nat} (hsame : ∀ x y, same x y → x < n ∧ y < m) (h : Path same d x y) :
    ∃ d', d' + (x - n) + (y - m) ≤ d ∧ Path same d' (min x n) (min y m) := by
  induction h with
  | start => exact ⟨0, by omega, by simpa using Path.start⟩
  | @keep d x y _ agree ih =>
    obtain ⟨hx, hy⟩ := hsame x y agree
    obtain ⟨d', hd', hpath⟩ := ih
    rw [Nat.min_eq_left (by omega), Nat.min_eq_left (by omega)] at hpath ⊢
    exact ⟨d', by omega, .keep hpath agree⟩
  | @delete d x y _ ih =>
    obtain ⟨d', hd', hpath⟩ := ih
    by_cases hx : x < n
    · rw [Nat.min_eq_left (by omega)] at hpath ⊢
      exact ⟨d' + 1, by omega, .delete hpath⟩
    · rw [Nat.min_eq_right (by omega)] at hpath ⊢
      exact ⟨d', by omega, hpath⟩
  | @insert d x y _ ih =>
    obtain ⟨d', hd', hpath⟩ := ih
    by_cases hy : y < m
    · rw [Nat.min_eq_left (a := y) (by omega)] at hpath
      rw [Nat.min_eq_left (a := y + 1) (by omega)]
      exact ⟨d' + 1, by omega, .insert hpath⟩
    · rw [Nat.min_eq_right (a := y) (by omega)] at hpath
      rw [Nat.min_eq_right (a := y + 1) (by omega)]
      exact ⟨d', by omega, hpath⟩

/-! ## Furthest points -/

/-- The furthest point of a diagonal that a distance reaches. -/
structure Furthest (same : Nat → Nat → Prop) (d : Nat) (diagonal : Int) (x : Nat) : Prop where
  reached : ∃ y : Nat, (x : Int) - y = diagonal ∧ Path same d x y
  furthest : ∀ x' y' : Nat, (x' : Int) - y' = diagonal → Path same d x' y' → x' ≤ x

theorem Furthest.eq {d : Nat} {diagonal : Int} {x x' : Nat} (h : Furthest same d diagonal x)
    (h' : Furthest same d diagonal x') : x = x' := by
  obtain ⟨y, hy, hpath⟩ := h.reached
  obtain ⟨y', hy', hpath'⟩ := h'.reached
  exact Nat.le_antisymm (h'.furthest x y hy hpath) (h.furthest x' y' hy' hpath')

theorem furthest_zero {count : Nat} (hsnake : Snake same 0 0 count) (hstop : ¬same count count) :
    Furthest same 0 0 count where
  reached := ⟨count, by simp, by simpa using Path.snake .start hsnake⟩
  furthest := by
    intro x y hdiagonal hpath
    obtain ⟨-, hagree⟩ := hpath.zero
    by_contra hlt
    exact hstop (by simpa using hagree count (Nat.not_le.1 hlt))

/-- From the start on, a snake that stops is as far as any path whose last edit ends before it. -/
theorem le_of_snake {start y₀ count x₁ y₁ more : Nat} (hdiagonal : (start : Int) - y₀ = (x₁ : Int) - y₁)
    (hle : x₁ ≤ start) (hstop : ¬same (start + count) (y₀ + count)) (hmore : Snake same x₁ y₁ more) :
    x₁ + more ≤ start + count := by
  by_contra hlt
  have hagree := hmore (start + count - x₁) (by omega)
  rw [show x₁ + (start + count - x₁) = start + count by omega,
    show y₁ + (start + count - x₁) = y₀ + count by omega] at hagree
  exact hstop hagree

/-- The greedy step: the furthest start a neighbour gives, followed along its snake. -/
theorem furthest_succ {d : Nat} {diagonal : Int} {start y₀ count : Nat} (hy₀ : (start : Int) - y₀ = diagonal)
    (hreached : (∃ x, start = x + 1 ∧ Furthest same d (diagonal - 1) x) ∨ Furthest same d (diagonal + 1) start ∧ 0 < y₀)
    (hleft : ∀ x y : Nat, (x : Int) - y = diagonal - 1 → Path same d x y → x + 1 ≤ start)
    (hright : ∀ x y : Nat, (x : Int) - y = diagonal + 1 → Path same d x y → x ≤ start)
    (hsnake : Snake same start y₀ count) (hstop : ¬same (start + count) (y₀ + count)) :
    Furthest same (d + 1) diagonal (start + count) where
  reached := by
    refine ⟨y₀ + count, by push_cast; omega, Path.snake ?_ hsnake⟩
    rcases hreached with ⟨x, rfl, hfurthest⟩ | ⟨hfurthest, hpos⟩
    · obtain ⟨y, hy, hpath⟩ := hfurthest.reached
      obtain rfl : y = y₀ := by push_cast at hy₀; omega
      exact .delete hpath
    · obtain ⟨y, hy, hpath⟩ := hfurthest.reached
      obtain rfl : y₀ = y + 1 := by omega
      exact .insert hpath
  furthest := by
    intro x y hdiagonal hpath
    obtain ⟨x₀, y₁, more, hbefore, ⟨rfl, rfl, hmore⟩ | ⟨rfl, rfl, hmore⟩⟩ := hpath.last
    · push_cast at hdiagonal
      exact le_of_snake (by push_cast; omega) (hleft x₀ y₁ (by omega) hbefore) hstop hmore
    · push_cast at hdiagonal
      exact le_of_snake (by push_cast; omega) (hright x₀ y₁ (by omega) hbefore) hstop hmore

end Rumoca.Lib.EditGraph
