import Rumoca.Lib.EditGraph
import Rumoca.Lib.Loop
import Rumoca.Solve.ChartDelta
/-!
# The edit script is a shortest one

A frontier feeds a round when it holds the furthest points of the round
before. Extending a diagonal from it gives the furthest point of the round, so
a round that reaches the end of both lists is the first that can, and walking
the recorded frontiers back makes every choice of the search again.
-/

namespace Rumoca.Solve.ChartDelta

open Lib Lib.EditGraph

variable {T : Type} [BEq T]

def Same (base target : List T) (x y : Nat) : Prop :=
  ∃ a b, base[x]? = some a ∧ target[y]? = some b ∧ (a == b) = true

variable {base target : List T}

theorem Same.lt {x y : Nat} (h : Same base target x y) : x < base.length ∧ y < target.length := by
  obtain ⟨a, b, ha, hb, -⟩ := h
  exact ⟨(List.getElem?_eq_some_iff.1 ha).1, (List.getElem?_eq_some_iff.1 hb).1⟩

theorem asUsize_natCast {n : Nat} (h : n < usizeLimit) : asUsize (n : Int) = n := by
  unfold asUsize
  rw [← Int.natCast_mod, Nat.mod_eq_of_lt h, Int.toNat_natCast]

/-! ## Snakes -/

theorem followSnake_spec (base target : List T) {fuel x y : Nat} (hx : x + fuel < usizeLimit) (hy : y + fuel < usizeLimit) :
    ∃ count, followSnake base target fuel x y = some ((x + count : Nat) : Int) ∧
      Snake (Same base target) x y count ∧ (count = fuel ∨ ¬Same base target (x + count) (y + count)) := by
  induction fuel generalizing x y with
  | zero => exact ⟨0, rfl, fun i hi => absurd hi (Nat.not_lt_zero i), .inl rfl⟩
  | succ fuel ih =>
    have hstop : ¬Same base target x y → Snake (Same base target) x y 0 ∧
        (0 = fuel + 1 ∨ ¬Same base target (x + 0) (y + 0)) := fun hne =>
      ⟨fun i hi => absurd hi (Nat.not_lt_zero i), .inr hne⟩
    unfold followSnake
    rw [asUsize_natCast (by omega), asUsize_natCast (by omega)]
    by_cases hinside : x < base.length ∧ y < target.length
    · rw [if_pos hinside]
      have hbase : base[x]? = some base[x] := List.getElem?_eq_getElem hinside.1
      have htarget : target[y]? = some target[y] := List.getElem?_eq_getElem hinside.2
      by_cases hagree : (base[x] == target[y]) = true
      · obtain ⟨count, hfollow, hsnake, hend⟩ := ih (x := x + 1) (y := y + 1) (by omega) (by omega)
        refine ⟨count + 1, ?_, fun i hi => ?_, ?_⟩
        · simp only [hbase, htarget, Option.bind_eq_bind, Option.bind_some, if_pos hagree]
          rw [Nat.add_right_comm x 1 count] at hfollow
          exact_mod_cast hfollow
        · cases i with
          | zero => exact ⟨base[x], target[y], hbase, htarget, hagree⟩
          | succ i =>
            have hi' := hsnake i (by omega)
            rwa [Nat.add_right_comm x 1 i, Nat.add_right_comm y 1 i] at hi'
        · rw [Nat.add_right_comm x 1 count, Nat.add_right_comm y 1 count] at hend
          exact hend.imp (congrArg (· + 1)) id
      · refine ⟨0, ?_, hstop ?_⟩
        · simp only [hbase, htarget, Option.bind_eq_bind, Option.bind_some, if_neg hagree]
          rfl
        · rintro ⟨a, b, ha, hb, hab⟩
          rw [hbase] at ha
          rw [htarget] at hb
          cases ha
          cases hb
          exact hagree hab
    · rw [if_neg hinside]
      exact ⟨0, rfl, hstop fun hsame => hinside hsame.lt⟩

theorem followSnake_stops (base target : List T) {x y : Nat} (hx : x + base.length < usizeLimit) (hy : y + base.length < usizeLimit) :
    ∃ count, followSnake base target base.length x y = some ((x + count : Nat) : Int) ∧
      Snake (Same base target) x y count ∧ ¬Same base target (x + count) (y + count) := by
  obtain ⟨count, hfollow, hsnake, hfull | hstop⟩ := followSnake_spec base target hx hy
  · refine ⟨count, hfollow, hsnake, fun hsame => ?_⟩
    have := hsame.lt.1
    omega
  · exact ⟨count, hfollow, hsnake, hstop⟩

/-! ## Frontiers -/

theorem mem_roundDiagonals {distance : Nat} {k : Int} :
    k ∈ roundDiagonals distance ↔ -(distance : Int) ≤ k ∧ k ≤ distance ∧ (k - distance) % 2 = 0 := by
  unfold roundDiagonals
  rw [List.mem_map]
  constructor
  · rintro ⟨i, hi, rfl⟩
    have := List.mem_range.1 hi
    omega
  · rintro ⟨hlow, hhigh, hparity⟩
    exact ⟨((k + distance) / 2).toNat, List.mem_range.2 (by omega), by omega⟩

/-- Room for the diagonals beside every diagonal up to `limit`. -/
def Frontier.Fits (limit : Nat) (frontier : Frontier) : Prop := frontier.length = 2 * (limit + 1) + 1

theorem Frontier.Fits.put {limit : Nat} {frontier : Frontier} (h : frontier.Fits limit) {k : Int}
    (hlow : -((limit : Int) + 1) ≤ k) (hhigh : k ≤ (limit : Int) + 1) (x : Int) :
    ∃ frontier', frontier.put ((limit : Int) + 1) k x = some frontier' ∧ frontier'.Fits limit ∧
      ∀ j, -((limit : Int) + 1) ≤ j → j ≤ (limit : Int) + 1 → frontier'.read ((limit : Int) + 1) j =
        if j = k then some x else frontier.read ((limit : Int) + 1) j := by
  unfold Frontier.Fits at h
  refine ⟨frontier.set (k + (limit + 1)).toNat x, ?_, ?_, fun j hj hj' => ?_⟩
  · unfold Frontier.put
    rw [if_pos ⟨by omega, by omega⟩]
  · unfold Frontier.Fits
    rw [List.length_set, h]
  · unfold Frontier.read
    rw [if_pos (by omega), List.getElem?_set]
    by_cases hsame : j = k
    · rw [if_pos (by rw [hsame]), if_pos (by omega), if_pos hsame]
    · rw [if_neg (by omega), if_neg hsame, if_pos (by omega)]

def Holds (base target : List T) (limit : Nat) (frontier : Frontier) (d : Nat) : Prop :=
  ∀ k ∈ roundDiagonals d, ∃ x : Nat, frontier.read ((limit : Int) + 1) k = some (x : Int) ∧
    Furthest (Same base target) d k x

/-- What a round reads: the furthest points of the round before, or the origin. -/
def Feeds (base target : List T) (limit : Nat) (frontier : Frontier) : (distance : Nat) → Prop
  | 0 => frontier.read ((limit : Int) + 1) 1 = some 0
  | d + 1 => Holds base target limit frontier d

section
variable {limit : Nat} {frontier : Frontier} {distance : Nat} {k : Int}

theorem Feeds.put (h : Feeds base target limit frontier distance) (hlimit : distance ≤ limit)
    (hk : k ∈ roundDiagonals distance) {frontier' : Frontier} {x : Int}
    (hread : ∀ j, -((limit : Int) + 1) ≤ j → j ≤ (limit : Int) + 1 → frontier'.read ((limit : Int) + 1) j =
      if j = k then some x else frontier.read ((limit : Int) + 1) j) :
    Feeds base target limit frontier' distance := by
  obtain ⟨hlow, hhigh, hparity⟩ := mem_roundDiagonals.1 hk
  cases distance with
  | zero =>
    show frontier'.read ((limit : Int) + 1) 1 = some 0
    rw [hread 1 (by omega) (by omega), if_neg (by omega)]
    exact h
  | succ d =>
    intro j hj
    obtain ⟨x, hx, hfurthest⟩ := h j hj
    obtain ⟨hlow', hhigh', hparity'⟩ := mem_roundDiagonals.1 hj
    refine ⟨x, ?_, hfurthest⟩
    rw [hread j (by omega) (by omega), if_neg (by omega)]
    exact hx

/-- What the choice of a round's start on a diagonal is. -/
structure Advance (base target : List T) (d : Nat) (k previous : Int) (px start y₀ : Nat) : Prop where
  diagonal : (start : Int) - y₀ = k
  origin : (previous = k + 1 ∧ Furthest (Same base target) d (k + 1) px ∧ start = px ∧ 0 < y₀) ∨
    (previous = k - 1 ∧ Furthest (Same base target) d (k - 1) px ∧ start = px + 1)
  left : ∀ x y : Nat, (x : Int) - y = k - 1 → Path (Same base target) d x y → x + 1 ≤ start
  right : ∀ x y : Nat, (x : Int) - y = k + 1 → Path (Same base target) d x y → x ≤ start

theorem previousDiagonal_spec {d : Nat} (h : Holds base target limit frontier d) (hk : k ∈ roundDiagonals (d + 1)) :
    ∃ previous px start y₀, previousDiagonal frontier ((limit : Int) + 1) (d + 1 : Nat) k = some previous ∧
      frontier.read ((limit : Int) + 1) previous = some ((px : Nat) : Int) ∧
      Advance base target d k previous px start y₀ := by
  obtain ⟨hlow, hhigh, hparity⟩ := mem_roundDiagonals.1 hk
  -- the start from the diagonal above, by an insertion
  have hinsert : ∀ {px : Nat}, Furthest (Same base target) d (k + 1) px →
      ∃ y₀ : Nat, (px : Int) - y₀ = k ∧ 0 < y₀ := by
    intro px hfurthest
    obtain ⟨y, hy, -⟩ := hfurthest.reached
    exact ⟨y + 1, by push_cast; omega, Nat.succ_pos y⟩
  have hdelete : ∀ {px : Nat}, Furthest (Same base target) d (k - 1) px →
      ∃ y₀ : Nat, ((px + 1 : Nat) : Int) - y₀ = k := by
    intro px hfurthest
    obtain ⟨y, hy, -⟩ := hfurthest.reached
    exact ⟨y, by push_cast; omega⟩
  unfold previousDiagonal
  by_cases hfirst : k = -((d + 1 : Nat) : Int)
  · obtain ⟨px, hread, hfurthest⟩ := h (k + 1) (mem_roundDiagonals.2 (by push_cast at hfirst; omega))
    obtain ⟨y₀, hdiagonal, hpos⟩ := hinsert hfurthest
    refine ⟨k + 1, px, px, y₀, if_pos hfirst, hread, hdiagonal, .inl ⟨rfl, hfurthest, rfl, hpos⟩,
      fun x y hxy hpath => ?_, fun x y hxy hpath => hfurthest.furthest x y hxy hpath⟩
    have := hpath.diagonal
    push_cast at hfirst
    omega
  · rw [if_neg hfirst]
    by_cases hlast : k = ((d + 1 : Nat) : Int)
    · obtain ⟨px, hread, hfurthest⟩ := h (k - 1) (mem_roundDiagonals.2 (by push_cast at hlast; omega))
      obtain ⟨y₀, hdiagonal⟩ := hdelete hfurthest
      refine ⟨k - 1, px, px + 1, y₀, if_pos hlast, hread, hdiagonal, .inr ⟨rfl, hfurthest, rfl⟩,
        fun x y hxy hpath => Nat.succ_le_succ (hfurthest.furthest x y hxy hpath), fun x y hxy hpath => ?_⟩
      have := hpath.diagonal
      push_cast at hlast
      omega
    · rw [if_neg hlast]
      push_cast at hlow hhigh hparity hfirst hlast
      obtain ⟨left, hleft, hleftFurthest⟩ := h (k - 1) (mem_roundDiagonals.2 (by omega))
      obtain ⟨right, hright, hrightFurthest⟩ := h (k + 1) (mem_roundDiagonals.2 (by omega))
      simp only [hleft, hright, Option.bind_eq_bind, Option.bind_some]
      by_cases hlt : (left : Int) < right
      · obtain ⟨y₀, hdiagonal, hpos⟩ := hinsert hrightFurthest
        refine ⟨k + 1, right, right, y₀, by rw [if_pos hlt]; rfl, hright, hdiagonal,
          .inl ⟨rfl, hrightFurthest, rfl, hpos⟩, fun x y hxy hpath => ?_,
          fun x y hxy hpath => hrightFurthest.furthest x y hxy hpath⟩
        have := hleftFurthest.furthest x y hxy hpath
        omega
      · obtain ⟨y₀, hdiagonal⟩ := hdelete hleftFurthest
        refine ⟨k - 1, left, left + 1, y₀, by rw [if_neg hlt]; rfl, hleft, hdiagonal,
          .inr ⟨rfl, hleftFurthest, rfl⟩,
          fun x y hxy hpath => Nat.succ_le_succ (hleftFurthest.furthest x y hxy hpath), fun x y hxy hpath => ?_⟩
        have := hrightFurthest.furthest x y hxy hpath
        omega

/-- Both lists are short enough for every number of the search. -/
structure Short (limit : Nat) (base target : List T) : Prop where
  base : base.length < u32Limit
  target : target.length < u32Limit
  limit : limit < u32Limit

theorem Path.le {d x y : Nat} (h : Path (Same base target) d x y) : x ≤ base.length + d ∧ y ≤ target.length + d := by
  obtain ⟨d', hd', -⟩ := h.corner fun x y hsame => hsame.lt
  omega

theorem Advance.furthest {d : Nat} {previous : Int} {px start y₀ count : Nat}
    (h : Advance base target d k previous px start y₀) (hsnake : Snake (Same base target) start y₀ count)
    (hstop : ¬Same base target (start + count) (y₀ + count)) :
    Furthest (Same base target) (d + 1) k (start + count) := by
  refine furthest_succ h.diagonal ?_ h.left h.right hsnake hstop
  rcases h.origin with ⟨-, hfurthest, rfl, hpos⟩ | ⟨-, hfurthest, rfl⟩
  · exact .inr ⟨hfurthest, hpos⟩
  · exact .inl ⟨px, rfl, hfurthest⟩

theorem Advance.bounds {d : Nat} {previous : Int} {px start y₀ : Nat} (h : Advance base target d k previous px start y₀) :
    start ≤ base.length + d + 1 ∧ y₀ ≤ target.length + d + 1 := by
  have hdiagonal := h.diagonal
  rcases h.origin with ⟨-, hfurthest, rfl, -⟩ | ⟨-, hfurthest, rfl⟩
  · obtain ⟨y, hy, hpath⟩ := hfurthest.reached
    have := Path.le hpath
    omega
  · obtain ⟨y, hy, hpath⟩ := hfurthest.reached
    have := Path.le hpath
    push_cast at hdiagonal
    omega

theorem furthestReach_zero (hshort : Short limit base target) (h : frontier.read ((limit : Int) + 1) 1 = some 0) :
    ∃ x : Nat, furthestReach frontier ((limit : Int) + 1) (0 : Nat) 0 base target = some (x : Int) ∧
      Furthest (Same base target) 0 0 x := by
  have hbase := hshort.base
  have hlimits : u32Limit < usizeLimit := by decide
  obtain ⟨count, hfollow, hsnake, hstop⟩ := followSnake_stops base target (x := 0) (y := 0)
    (by omega) (by omega)
  rw [Nat.zero_add] at hfollow hstop
  refine ⟨count, ?_, furthest_zero hsnake hstop⟩
  unfold furthestReach previousDiagonal
  simp only [Nat.cast_zero, Int.neg_zero, if_true, Int.zero_add, Option.bind_eq_bind, Option.bind_some, h, Int.sub_zero]
  exact hfollow

theorem furthestReach_succ (hshort : Short limit base target) {d : Nat} (hd : d < limit)
    (h : Holds base target limit frontier d) (hk : k ∈ roundDiagonals (d + 1)) :
    ∃ x : Nat, furthestReach frontier ((limit : Int) + 1) (d + 1 : Nat) k base target = some (x : Int) ∧
      Furthest (Same base target) (d + 1) k x := by
  obtain ⟨previous, px, start, y₀, hprevious, hread, hadvance⟩ := previousDiagonal_spec h hk
  obtain ⟨hstart, hy₀⟩ := hadvance.bounds
  have hbase := hshort.base
  have htarget := hshort.target
  have hlimit := hshort.limit
  have hlimits : 4 * u32Limit < usizeLimit := by decide
  obtain ⟨count, hfollow, hsnake, hstop⟩ := followSnake_stops base target (x := start) (y := y₀)
    (by omega) (by omega)
  refine ⟨start + count, ?_, hadvance.furthest hsnake hstop⟩
  have hx : (if previous = k + 1 then (px : Int) else px + 1) = start := by
    rcases hadvance.origin with ⟨rfl, -, rfl, -⟩ | ⟨rfl, -, rfl⟩
    · rw [if_pos rfl]
    · rw [if_neg (by omega)]
      push_cast
      rfl
  have hy : (start : Int) - k = y₀ := by
    have := hadvance.diagonal
    omega
  unfold furthestReach
  simp only [hprevious, hread, Option.bind_eq_bind, Option.bind_some, hx, hy]
  exact hfollow

theorem Feeds.furthestReach (hshort : Short limit base target) (h : Feeds base target limit frontier distance)
    (hlimit : distance ≤ limit) (hk : k ∈ roundDiagonals distance) :
    ∃ x : Nat, furthestReach frontier ((limit : Int) + 1) distance k base target = some (x : Int) ∧
      Furthest (Same base target) distance k x := by
  cases distance with
  | zero =>
    obtain rfl : k = 0 := by
      have := mem_roundDiagonals.1 hk
      omega
    exact furthestReach_zero hshort h
  | succ d => exact furthestReach_succ hshort hlimit h hk

/-! ## Rounds -/

/-- A furthest point at or past the end of both lists. -/
def Ends (base target : List T) (k : Int) (x : Nat) : Prop :=
  (base.length : Int) ≤ x ∧ (target.length : Int) ≤ x - k

/-- A round ends at the first diagonal past the ends of the lists, or holds its furthest points. -/
theorem extendDiagonals_spec (hshort : Short limit base target) (hfits : frontier.Fits limit)
    (hfeeds : Feeds base target limit frontier distance) (hlimit : distance ≤ limit) (done : List Int) {rest : List Int}
    (hround : done ++ rest = roundDiagonals distance)
    (hdone : ∀ k ∈ done, ∃ x : Nat, frontier.read ((limit : Int) + 1) k = some (x : Int) ∧
      Furthest (Same base target) distance k x ∧ ¬Ends base target k x) :
    ∃ frontier' reached, extendDiagonals base target ((limit : Int) + 1) distance rest frontier =
        some (frontier', reached) ∧ frontier'.Fits limit ∧
      (reached = true → ∃ k x, Furthest (Same base target) distance k x ∧ Ends base target k x) ∧
      (reached = false → ∀ k ∈ roundDiagonals distance, ∃ x : Nat,
        frontier'.read ((limit : Int) + 1) k = some (x : Int) ∧ Furthest (Same base target) distance k x ∧
          ¬Ends base target k x) := by
  induction rest generalizing done frontier with
  | nil =>
    rw [List.append_nil] at hround
    exact ⟨frontier, false, rfl, hfits, fun h => absurd h Bool.false_ne_true, fun _ => hround ▸ hdone⟩
  | cons k rest ih =>
    have hk : k ∈ roundDiagonals distance := hround ▸ List.mem_append_right _ List.mem_cons_self
    obtain ⟨hlow, hhigh, -⟩ := mem_roundDiagonals.1 hk
    obtain ⟨x, hx, hfurthest⟩ := hfeeds.furthestReach hshort hlimit hk
    obtain ⟨frontier', hput, hfits', hread⟩ := hfits.put (k := k) (by omega) (by omega) (x : Int)
    have hfeeds' := hfeeds.put hlimit hk hread
    have hreads : ∀ j ∈ roundDiagonals distance, frontier'.read ((limit : Int) + 1) j =
        if j = k then some (x : Int) else frontier.read ((limit : Int) + 1) j := by
      intro j hj
      have := mem_roundDiagonals.1 hj
      exact hread j (by omega) (by omega)
    unfold extendDiagonals
    simp only [hx, hput, Option.bind_eq_bind, Option.bind_some]
    by_cases hends : (base.length : Int) ≤ (x : Int) ∧ (target.length : Int) ≤ (x : Int) - k
    · rw [if_pos hends]
      exact ⟨frontier', true, rfl, hfits', fun _ => ⟨k, x, hfurthest, hends⟩, fun h => absurd h.symm Bool.false_ne_true⟩
    · rw [if_neg hends]
      refine ih hfits' hfeeds' (done ++ [k]) (by rw [List.append_assoc]; exact hround) ?_
      intro j hj
      have hjround : j ∈ roundDiagonals distance := by
        rcases List.mem_append.1 hj with hj | hj
        · exact hround ▸ List.mem_append_left _ hj
        · rw [List.mem_singleton.1 hj]
          exact hk
      rw [hreads j hjround]
      by_cases hjk : j = k
      · subst hjk
        exact ⟨x, if_pos rfl, hfurthest, hends⟩
      · rw [if_neg hjk]
        rcases List.mem_append.1 hj with hj | hj
        · exact hdone j hj
        · exact absurd (List.mem_singleton.1 hj) hjk

theorem not_path_of_round (h : ∀ k ∈ roundDiagonals distance, ∃ x : Nat,
      frontier.read ((limit : Int) + 1) k = some (x : Int) ∧ Furthest (Same base target) distance k x ∧
        ¬Ends base target k x) : ¬Path (Same base target) distance base.length target.length := by
  intro hpath
  obtain ⟨hlow, hhigh, hparity⟩ := hpath.diagonal
  obtain ⟨x, -, hfurthest, hends⟩ := h ((base.length : Int) - target.length)
    (mem_roundDiagonals.2 ⟨hlow, hhigh, hparity⟩)
  have hle := hfurthest.furthest base.length target.length rfl hpath
  exact hends ⟨by omega, by omega⟩

theorem furthest_of_ends {x : Nat} (hfurthest : Furthest (Same base target) distance k x) (hends : Ends base target k x)
    (hnone : ∀ d < distance, ¬Path (Same base target) d base.length target.length) :
    Furthest (Same base target) distance ((base.length : Int) - target.length) base.length := by
  obtain ⟨y, hy, hpath⟩ := hfurthest.reached
  obtain ⟨hx, hk⟩ := hends
  obtain ⟨d', hd', hcorner⟩ := hpath.corner fun x y hsame => hsame.lt
  rw [Nat.min_eq_right (by omega), Nat.min_eq_right (by omega)] at hcorner
  have hfull : distance ≤ d' := by
    by_contra hlt
    exact hnone d' (Nat.not_le.1 hlt) hcorner
  obtain rfl : x = base.length := by omega
  obtain rfl : k = (base.length : Int) - target.length := by omega
  exact hfurthest

end

/-! ## Walking back -/

/-- The points a list of steps goes through, from one point to another. -/
def Walks (base target : List T) : List Step → (x y x' y' : Nat) → Prop
  | [], x, y, x', y' => x = x' ∧ y = y'
  | .keep :: steps, x, y, x', y' => Same base target x y ∧ Walks base target steps (x + 1) (y + 1) x' y'
  | .delete :: steps, x, y, x', y' => Walks base target steps (x + 1) y x' y'
  | .insert index :: steps, x, y, x', y' => index = y ∧ Walks base target steps x (y + 1) x' y'

def stepCost (steps : List Step) : Nat :=
  (steps.map fun step => match step with
    | .keep => 0
    | .delete | .insert _ => 1).sum

theorem stepCost_append (steps steps' : List Step) : stepCost (steps ++ steps') = stepCost steps + stepCost steps' := by
  unfold stepCost
  rw [List.map_append, List.sum_append]

theorem stepCost_replicate_keep (count : Nat) : stepCost (List.replicate count .keep) = 0 := by
  unfold stepCost
  rw [List.map_replicate, List.sum_replicate]
  rfl

theorem stepCost_reverse (steps : List Step) : stepCost steps.reverse = stepCost steps := by
  unfold stepCost
  rw [List.map_reverse, List.sum_reverse]

theorem walks_snake {steps : List Step} {x y x' y' count : Nat} (hsnake : Snake (Same base target) x y count)
    (h : Walks base target steps (x + count) (y + count) x' y') :
    Walks base target (List.replicate count .keep ++ steps) x y x' y' := by
  induction count generalizing x y with
  | zero => exact h
  | succ count ih =>
    refine ⟨hsnake 0 (Nat.succ_pos count), ih (fun i hi => ?_) ?_⟩
    · have := hsnake (i + 1) (Nat.succ_lt_succ hi)
      rwa [Nat.add_right_comm x 1 i, Nat.add_right_comm y 1 i]
    · rwa [Nat.add_right_comm x 1 count, Nat.add_right_comm y 1 count]

section
variable {limit : Nat} {trace : List Frontier}

theorem backtrackRound_spec (hshort : Short limit base target) {frontier : Frontier} {d x y : Nat}
    (htrace : (trace)[d + 1]? = some frontier) (h : Holds base target limit frontier d) (hd : d < limit)
    (hfurthest : Furthest (Same base target) (d + 1) ((x : Int) - y) x) :
    ∃ px py round, backtrackRound trace ((limit : Int) + 1) (d + 1) x y =
        some (((px : Nat) : Int), ((py : Nat) : Int), round) ∧ stepCost round = 1 ∧
      Furthest (Same base target) d ((px : Int) - py) px ∧
      ∀ steps x' y', Walks base target steps x y x' y' → Walks base target (round.reverse ++ steps) px py x' y' := by
  have hk : (x : Int) - y ∈ roundDiagonals (d + 1) := by
    obtain ⟨y₁, hy₁, hpath⟩ := hfurthest.reached
    have := hpath.diagonal
    rw [hy₁] at this
    exact mem_roundDiagonals.2 this
  obtain ⟨previous, px, start, y₀, hprevious, hread, hadvance⟩ := previousDiagonal_spec h hk
  obtain ⟨hstart, hy₀⟩ := hadvance.bounds
  have hbase := hshort.base
  have htarget := hshort.target
  have hlimit := hshort.limit
  have hlimits : 4 * u32Limit < usizeLimit := by decide
  obtain ⟨count, -, hsnake, hstop⟩ := followSnake_stops base target (x := start) (y := y₀)
    (by omega) (by omega)
  obtain rfl : x = start + count := hfurthest.eq (hadvance.furthest hsnake hstop)
  have hdiagonal := hadvance.diagonal
  obtain rfl : y = y₀ + count := by push_cast at hdiagonal; omega
  have hend : start + count ≤ base.length + (d + 1) := by
    obtain ⟨y₁, -, hpath⟩ := hfurthest.reached
    exact (Path.le hpath).1
  -- the two coordinates of the round before, and the snake's length, from where the start came
  obtain ⟨py, step, hpy, hcount, hstep, hcost, hbefore, hwalk⟩ : ∃ py step, (px : Int) - previous = (py : Nat) ∧
      max (min (((start + count : Nat) : Int) - px) (((y₀ + count : Nat) : Int) - ((px : Int) - previous))) 0 = count ∧
      ((start = px ∧ 1 ≤ y₀ ∧ step = .insert (y₀ - 1)) ∨ start ≠ px ∧ step = .delete) ∧ stepCost [step] = 1 ∧ Furthest (Same base target) d ((px : Int) - py) px ∧
      ∀ steps x' y', Walks base target steps start y₀ x' y' → Walks base target (step :: steps) px py x' y' := by
    rcases hadvance.origin with ⟨hprev, hbefore, rfl, hpos⟩ | ⟨hprev, hbefore, rfl⟩
    · obtain ⟨py, rfl⟩ : ∃ py, y₀ = py + 1 := ⟨y₀ - 1, by omega⟩
      push_cast at hdiagonal hprev
      refine ⟨py, .insert py, by omega, by push_cast; omega, .inl ⟨rfl, hpos, rfl⟩, rfl, ?_,
        fun steps x' y' h => ⟨rfl, h⟩⟩
      rwa [show (start : Int) - py = ((start + count : Nat) : Int) - ((py + 1 + count : Nat) : Int) + 1 by
        push_cast; omega]
    · push_cast at hdiagonal hprev
      refine ⟨y₀, .delete, by omega, by push_cast; omega, .inr ⟨Nat.succ_ne_self px, rfl⟩, rfl, ?_,
        fun steps x' y' h => h⟩
      rwa [show (px : Int) - y₀ = ((px + 1 + count : Nat) : Int) - ((y₀ + count : Nat) : Int) - 1 by push_cast; omega]
  refine ⟨px, py, List.replicate count .keep ++ [step], ?_, ?_, hbefore, fun steps x' y' h => ?_⟩
  · unfold backtrackRound
    simp only [htrace, hprevious, hread, Option.bind_eq_bind, Option.bind_some, hcount]
    rw [show ((start + count : Nat) : Int) - count = start by push_cast; omega,
      show ((y₀ + count : Nat) : Int) - count = y₀ by push_cast; omega, asUsize_natCast (n := y₀) (by omega),
      asUsize_natCast (n := count) (by omega), hpy]
    rcases hstep with ⟨hsame, hpos, rfl⟩ | ⟨hne, rfl⟩
    · rw [if_pos (congrArg Nat.cast hsame), if_pos hpos]
      rfl
    · rw [if_neg (Nat.cast_injective.ne hne)]
      rfl
  · rw [stepCost_append, stepCost_replicate_keep, hcost]
  · rw [List.reverse_append, List.reverse_replicate, List.append_assoc]
    exact hwalk _ x' y' (walks_snake hsnake h)

theorem backtrackRounds_spec (hshort : Short limit base target) {n m d x y : Nat} (hd : d ≤ limit)
    (htrace : ∀ e < d, ∃ frontier, (trace)[e + 1]? = some frontier ∧ Holds base target limit frontier e)
    (hfurthest : Furthest (Same base target) d ((x : Int) - y) x) (steps : List Step)
    (hwalks : Walks base target steps.reverse x y n m) :
    ∃ (count : Nat) (steps' : List Step), backtrackRounds trace ((limit : Int) + 1) d x y steps =
        some ((count : Int), (count : Int), steps') ∧ stepCost steps' = stepCost steps + d ∧
      Snake (Same base target) 0 0 count ∧ Walks base target steps'.reverse count count n m := by
  induction d generalizing x y steps with
  | zero =>
    obtain ⟨y₁, hy₁, hpath⟩ := hfurthest.reached
    obtain ⟨hsame, hsnake⟩ := hpath.zero
    obtain rfl : x = y := by omega
    exact ⟨x, steps, rfl, rfl, hsnake, hwalks⟩
  | succ d ih =>
    obtain ⟨frontier, hfrontier, hholds⟩ := htrace d (Nat.lt_succ_self d)
    obtain ⟨px, py, round, hround, hcost, hbefore, hwalk⟩ := backtrackRound_spec hshort hfrontier hholds hd hfurthest
    obtain ⟨count, steps', hsteps, hcost', hsnake, hwalks'⟩ := ih (Nat.le_of_succ_le hd)
      (fun e he => htrace e (Nat.lt_succ_of_lt he)) hbefore (steps ++ round)
      (by rw [List.reverse_append]; exact hwalk _ _ _ hwalks)
    refine ⟨count, steps', ?_, ?_, hsnake, hwalks'⟩
    · unfold backtrackRounds
      simp only [hround, Option.bind_eq_bind, Option.bind_some]
      exact hsteps
    · rw [hcost', stepCost_append, hcost]
      omega

end

end Rumoca.Solve.ChartDelta
