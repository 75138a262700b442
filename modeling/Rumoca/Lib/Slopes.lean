import Mathlib.Algebra.Order.Field.Basic
import Mathlib.Data.Set.Basic
import Mathlib.Order.Interval.Set.Defs
import Mathlib.Tactic.Linarith
import Mathlib.Tactic.Ring
/-!
# Slopes over an ordered field

Continuity and the derivative by `ε` and `δ`, within a set. A function given
by pieces between knots takes both from its pieces.
-/

namespace Rumoca.Lib

variable {K : Type*} [Field K] [LinearOrder K]

local instance atLeastTwo_two : Nat.AtLeastTwo 2 := ⟨le_rfl⟩
local instance atLeastTwo_three : Nat.AtLeastTwo 3 := ⟨by decide⟩

/-- Within the set the function stays close to its value at `x`. -/
def ContinuousWithin (s : Set K) (f : K → K) (x : K) : Prop :=
  ∀ ε > 0, ∃ δ > 0, ∀ y ∈ s, |y - x| < δ → |f y - f x| < ε

/-- Within the set the function stays closer to a line through its value at `x` than any other slope does. -/
def HasSlopeWithin (s : Set K) (f : K → K) (slope x : K) : Prop :=
  ∀ ε > 0, ∃ δ > 0, ∀ y ∈ s, |y - x| < δ → |f y - f x - slope * (y - x)| ≤ ε * |y - x|

def IsContinuousAt (f : K → K) (x : K) : Prop := ContinuousWithin Set.univ f x

/-- The slope is the derivative of the function at `x`. -/
def HasSlopeAt (f : K → K) (slope x : K) : Prop := HasSlopeWithin Set.univ f slope x

variable {s t : Set K} {f g : K → K} {slope x δ : K}

theorem ContinuousWithin.union (hs : ContinuousWithin s f x) (ht : ContinuousWithin t f x) :
    ContinuousWithin (s ∪ t) f x := by
  intro ε hε
  obtain ⟨δ, hδ, hs⟩ := hs ε hε
  obtain ⟨δ', hδ', ht⟩ := ht ε hε
  refine ⟨min δ δ', lt_min hδ hδ', fun y hy hnear => ?_⟩
  rcases hy with hy | hy
  · exact hs y hy (hnear.trans_le (min_le_left _ _))
  · exact ht y hy (hnear.trans_le (min_le_right _ _))

theorem HasSlopeWithin.union (hs : HasSlopeWithin s f slope x) (ht : HasSlopeWithin t f slope x) :
    HasSlopeWithin (s ∪ t) f slope x := by
  intro ε hε
  obtain ⟨δ, hδ, hs⟩ := hs ε hε
  obtain ⟨δ', hδ', ht⟩ := ht ε hε
  refine ⟨min δ δ', lt_min hδ hδ', fun y hy hnear => ?_⟩
  rcases hy with hy | hy
  · exact hs y hy (hnear.trans_le (min_le_left _ _))
  · exact ht y hy (hnear.trans_le (min_le_right _ _))

theorem HasSlopeAt.within (h : HasSlopeAt f slope x) (s : Set K) : HasSlopeWithin s f slope x := by
  intro ε hε
  obtain ⟨δ, hδ, h⟩ := h ε hε
  exact ⟨δ, hδ, fun y _ => h y (Set.mem_univ y)⟩

theorem HasSlopeWithin.congr (hg : HasSlopeWithin s g slope x) (hδ : 0 < δ) (hx : f x = g x)
    (heq : ∀ y ∈ s, |y - x| < δ → f y = g y) : HasSlopeWithin s f slope x := by
  intro ε hε
  obtain ⟨δ', hδ', hg⟩ := hg ε hε
  refine ⟨min δ δ', lt_min hδ hδ', fun y hy hnear => ?_⟩
  rw [hx, heq y hy (hnear.trans_le (min_le_left _ _))]
  exact hg y hy (hnear.trans_le (min_le_right _ _))

theorem HasSlopeAt.shift {c : K} (h : HasSlopeAt f slope (x - c)) : HasSlopeAt (fun y => f (y - c)) slope x := by
  intro ε hε
  obtain ⟨δ, hδ, h⟩ := h ε hε
  refine ⟨δ, hδ, fun y hy hnear => ?_⟩
  have hy' : y - c - (x - c) = y - x := sub_sub_sub_cancel_right y x c
  have hbound := h (y - c) hy
  rw [hy'] at hbound
  exact hbound hnear

section
variable [IsStrictOrderedRing K]

theorem HasSlopeWithin.continuous (h : HasSlopeWithin s f slope x) : ContinuousWithin s f x := by
  intro ε hε
  obtain ⟨δ, hδ, h⟩ := h 1 one_pos
  have hpos : 0 < 1 + |slope| := add_pos_of_pos_of_nonneg one_pos (abs_nonneg slope)
  refine ⟨min δ (ε / (1 + |slope|)), lt_min hδ (div_pos hε hpos), fun y hy hnear => ?_⟩
  have hclose := h y hy (hnear.trans_le (min_le_left _ _))
  have hsmall : |y - x| * (1 + |slope|) < ε := (lt_div_iff₀ hpos).1 (hnear.trans_le (min_le_right _ _))
  calc |f y - f x| = |(f y - f x - slope * (y - x)) + slope * (y - x)| := by rw [sub_add_cancel]
    _ ≤ |f y - f x - slope * (y - x)| + |slope * (y - x)| := abs_add_le _ _
    _ ≤ 1 * |y - x| + |slope| * |y - x| := add_le_add hclose (abs_mul _ _).le
    _ = |y - x| * (1 + |slope|) := by ring
    _ < ε := hsmall

/-! ## Cubics -/

/-- A cubic through `(x0, y0)`, in the coordinate from `x0`. -/
def cubic (x0 y0 c0 c1 c2 : K) (x : K) : K := y0 + ((c0 * (x - x0) + c1) * (x - x0) + c2) * (x - x0)

def cubicSlope (x0 c0 c1 c2 : K) (x : K) : K := (3 * c0 * (x - x0) + 2 * c1) * (x - x0) + c2

theorem hasSlopeAt_cubic (x0 y0 c0 c1 c2 x : K) :
    HasSlopeAt (cubic x0 y0 c0 c1 c2) (cubicSlope x0 c0 c1 c2 x) x := by
  intro ε hε
  -- Within distance one the quotient's remainder is bounded.
  have hbound : 0 < |c1| + |c0| * (1 + 3 * |x - x0|) + 1 :=
    add_pos_of_nonneg_of_pos (add_nonneg (abs_nonneg _) (mul_nonneg (abs_nonneg _)
      (add_nonneg zero_le_one (mul_nonneg (by norm_num) (abs_nonneg _))))) one_pos
  refine ⟨min 1 (ε / (|c1| + |c0| * (1 + 3 * |x - x0|) + 1)), lt_min one_pos (div_pos hε hbound), fun y _ hnear => ?_⟩
  have hone : |y - x| ≤ 1 := (hnear.trans_le (min_le_left _ _)).le
  have hsmall : |y - x| * (|c1| + |c0| * (1 + 3 * |x - x0|) + 1) ≤ ε :=
    ((lt_div_iff₀ hbound).1 (hnear.trans_le (min_le_right _ _))).le
  have hremainder : |c1 + c0 * ((y - x) + 3 * (x - x0))| ≤ |c1| + |c0| * (1 + 3 * |x - x0|) := by
    calc |c1 + c0 * ((y - x) + 3 * (x - x0))| ≤ |c1| + |c0 * ((y - x) + 3 * (x - x0))| := abs_add_le _ _
      _ = |c1| + |c0| * |(y - x) + 3 * (x - x0)| := by rw [abs_mul]
      _ ≤ |c1| + |c0| * (|y - x| + |3 * (x - x0)|) :=
        add_le_add le_rfl (mul_le_mul_of_nonneg_left (abs_add_le _ _) (abs_nonneg _))
      _ = |c1| + |c0| * (|y - x| + 3 * |x - x0|) := by rw [abs_mul, abs_of_pos (show (0 : K) < 3 by norm_num)]
      _ ≤ |c1| + |c0| * (1 + 3 * |x - x0|) :=
        add_le_add le_rfl (mul_le_mul_of_nonneg_left (add_le_add hone le_rfl) (abs_nonneg _))
  have hexpand : cubic x0 y0 c0 c1 c2 y - cubic x0 y0 c0 c1 c2 x - cubicSlope x0 c0 c1 c2 x * (y - x) =
      (c1 + c0 * ((y - x) + 3 * (x - x0))) * (y - x) * (y - x) := by
    unfold cubic cubicSlope
    ring
  rw [hexpand, abs_mul, abs_mul]
  refine mul_le_mul_of_nonneg_right ?_ (abs_nonneg _)
  calc |c1 + c0 * ((y - x) + 3 * (x - x0))| * |y - x|
      ≤ (|c1| + |c0| * (1 + 3 * |x - x0|)) * |y - x| := mul_le_mul_of_nonneg_right hremainder (abs_nonneg _)
    _ ≤ |y - x| * (|c1| + |c0| * (1 + 3 * |x - x0|) + 1) := by nlinarith [abs_nonneg (y - x)]
    _ ≤ ε := hsmall

/-! ## Pieces -/

end

/-- The function is piece `j` from knot `j - 1` to knot `j`, the outer pieces reaching past the knots. -/
structure Pieces (f : K → K) (n : Nat) (knot : Nat → K) (piece : Nat → K → K) : Prop where
  increasing : ∀ i, i + 1 < n → knot i < knot (i + 1)
  eq : ∀ j ≤ n, ∀ x, (j ≠ 0 → knot (j - 1) ≤ x) → (j ≠ n → x ≤ knot j) → f x = piece j x

def Inside (n : Nat) (knot : Nat → K) (j : Nat) (x : K) : Prop := (j ≠ 0 → knot (j - 1) < x) ∧ (j ≠ n → x < knot j)

omit [Field K] in
theorem inside_or_knot (n : Nat) (knot : Nat → K) (x : K) :
    (∃ j ≤ n, Inside n knot j x) ∨ ∃ i < n, x = knot i := by
  have hexists : ∃ j, j = n ∨ x ≤ knot j := ⟨n, .inl rfl⟩
  have hle : Nat.find hexists ≤ n := Nat.find_min' hexists (.inl rfl)
  have hbefore : Nat.find hexists ≠ 0 → knot (Nat.find hexists - 1) < x := fun hne =>
    not_le.1 fun hx => Nat.find_min hexists (Nat.sub_lt (Nat.pos_of_ne_zero hne) Nat.one_pos) (.inr hx)
  by_cases hlast : Nat.find hexists = n
  · exact .inl ⟨_, hle, hbefore, fun hne => absurd hlast hne⟩
  · rcases ((Nat.find_spec hexists).resolve_left hlast).lt_or_eq with hlt | heq
    · exact .inl ⟨_, hle, hbefore, fun _ => hlt⟩
    · exact .inr ⟨_, lt_of_le_of_ne hle hlast, heq⟩

namespace Pieces

variable [IsStrictOrderedRing K] {n i j : Nat} {knot : Nat → K} {piece : Nat → K → K}

theorem hasSlopeAt_inside (h : Pieces f n knot piece) (hj : j ≤ n) (hx : Inside n knot j x)
    (hpiece : HasSlopeAt (piece j) slope x) : HasSlopeAt f slope x := by
  have hleft : 0 < if j = 0 then 1 else x - knot (j - 1) := by
    split
    · exact one_pos
    · next hne => exact sub_pos.2 (hx.1 hne)
  have hright : 0 < if j = n then 1 else knot j - x := by
    split
    · exact one_pos
    · next hne => exact sub_pos.2 (hx.2 hne)
  refine HasSlopeWithin.congr hpiece (lt_min hleft hright)
    (h.eq j hj x (fun hne => (hx.1 hne).le) fun hne => (hx.2 hne).le) fun y _ hnear => h.eq j hj y ?_ ?_
  · intro hne
    have hlt := hnear.trans_le (min_le_left _ _)
    rw [if_neg hne, abs_lt] at hlt
    linarith
  · intro hne
    have hlt := hnear.trans_le (min_le_right _ _)
    rw [if_neg hne, abs_lt] at hlt
    linarith

theorem hasSlopeWithin_left (h : Pieces f n knot piece) (hi : i < n) (hpiece : HasSlopeAt (piece i) slope (knot i)) :
    HasSlopeWithin (Set.Iic (knot i)) f slope (knot i) := by
  have hbefore : i ≠ 0 → knot (i - 1) < knot i := fun hne => by
    have := h.increasing (i - 1) (by omega)
    rwa [Nat.sub_add_cancel (Nat.pos_of_ne_zero hne)] at this
  have hleft : 0 < if i = 0 then 1 else knot i - knot (i - 1) := by
    split
    · exact one_pos
    · next hne => exact sub_pos.2 (hbefore hne)
  refine HasSlopeWithin.congr (hpiece.within _) hleft
    (h.eq i hi.le (knot i) (fun hne => (hbefore hne).le) fun _ => le_rfl) fun y hy hnear =>
      h.eq i hi.le y ?_ fun _ => hy
  intro hne
  rw [if_neg hne, abs_lt] at hnear
  linarith [hnear.1]

theorem hasSlopeWithin_right (h : Pieces f n knot piece) (hi : i < n)
    (hpiece : HasSlopeAt (piece (i + 1)) slope (knot i)) : HasSlopeWithin (Set.Ici (knot i)) f slope (knot i) := by
  have hafter : i + 1 ≠ n → knot i < knot (i + 1) := fun hne => h.increasing i (by omega)
  have hright : 0 < if i + 1 = n then 1 else knot (i + 1) - knot i := by
    split
    · exact one_pos
    · next hne => exact sub_pos.2 (hafter hne)
  refine HasSlopeWithin.congr (hpiece.within _) hright
    (h.eq (i + 1) hi (knot i) (fun _ => le_rfl) fun hne => (hafter hne).le) fun y hy hnear =>
      h.eq (i + 1) hi y (fun _ => hy) ?_
  intro hne
  rw [if_neg hne, abs_lt] at hnear
  linarith [hnear.2]

theorem hasSlopeAt_knot (h : Pieces f n knot piece) (hi : i < n) (hleft : HasSlopeAt (piece i) slope (knot i))
    (hright : HasSlopeAt (piece (i + 1)) slope (knot i)) : HasSlopeAt f slope (knot i) := by
  have hunion := (h.hasSlopeWithin_left hi hleft).union (h.hasSlopeWithin_right hi hright)
  rwa [Set.Iic_union_Ici] at hunion

theorem continuous (h : Pieces f n knot piece) (slopes : Nat → K → K)
    (hpieces : ∀ j ≤ n, ∀ x, HasSlopeAt (piece j) (slopes j x) x) (x : K) : IsContinuousAt f x := by
  rcases inside_or_knot n knot x with ⟨j, hj, hx⟩ | ⟨i, hi, rfl⟩
  · exact (h.hasSlopeAt_inside hj hx (hpieces j hj x)).continuous
  · have hunion := (h.hasSlopeWithin_left hi (hpieces i hi.le _)).continuous.union
      (h.hasSlopeWithin_right hi (hpieces (i + 1) hi _)).continuous
    rwa [Set.Iic_union_Ici] at hunion

end Pieces

end Rumoca.Lib
