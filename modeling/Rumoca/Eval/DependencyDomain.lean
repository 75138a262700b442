import Rumoca.Machine
import Mathlib.Tactic
/-!
# Compact dependency relations

A may-read relation over solver coordinates: single coordinates, ranges, and
affine images of a box of loop indices. An image knows an interval that holds
it and a divisor of all its strides, so asking for one coordinate enumerates
nothing. The answer covers every coordinate of the relation.
-/

namespace Rumoca.Eval

inductive CompactYDependencyError where
  | indexOverflow
  | invalidDimension (dimension rank : Nat)
  | rankMismatch
deriving DecidableEq, Repr

def i128Limit : Int := 2 ^ 127

def checkedI128 (z : Int) : Option Int := if -i128Limit ≤ z ∧ z < i128Limit then some z else none

theorem checkedI128_value {z w : Int} (h : checkedI128 z = some w) : w = z := by
  unfold checkedI128 at h
  split at h
  · exact (Option.some.inj h).symm
  · cases h

/-! ## Affine images -/

def InDomain (extents coordinates : List Nat) : Prop := List.Forall₂ (· < ·) coordinates extents

def affineOffset (strides : List Int) (coordinates : List Nat) : Int :=
  (List.zipWith (fun coordinate stride => (coordinate : Int) * stride) coordinates strides).sum

@[simp] theorem affineOffset_nil (strides : List Int) : affineOffset strides [] = 0 := rfl

@[simp] theorem affineOffset_cons (stride : Int) (strides : List Int) (coordinate : Nat) (coordinates : List Nat) :
    affineOffset (stride :: strides) (coordinate :: coordinates) =
      coordinate * stride + affineOffset strides coordinates := rfl

/-- `gcd`: Euclid's loop. -/
def strideGcd (lhs rhs : Nat) : Nat := if _ : rhs = 0 then lhs else strideGcd rhs (lhs % rhs)
termination_by rhs
decreasing_by exact Nat.mod_lt _ (Nat.pos_of_ne_zero ‹_›)

theorem strideGcd_eq (lhs rhs : Nat) : strideGcd lhs rhs = Nat.gcd lhs rhs := by
  induction lhs, rhs using strideGcd.induct with
  | case1 lhs => simp [strideGcd]
  | case2 lhs rhs h ih =>
    rw [strideGcd, dif_neg h, ih, Nat.gcd_comm rhs, ← Nat.gcd_rec, Nat.gcd_comm]

/-- The least and the greatest coordinate of an image and a divisor of its strides. -/
structure AffineBounds where
  minimum : Int
  maximum : Int
  divisor : Nat
deriving DecidableEq, Repr

/-- One axis: its last point moves the minimum down or the maximum up. -/
def AffineBounds.extend (s : AffineBounds) (axis : Nat × Int) : Option AffineBounds := do
  let offset ← checkedI128 (((axis.1 - 1 : Nat) : Int) * axis.2)
  let divisor := strideGcd s.divisor axis.2.natAbs
  if offset < 0 then do
    let minimum ← checkedI128 (s.minimum + offset)
    pure ⟨minimum, s.maximum, divisor⟩
  else do
    let maximum ← checkedI128 (s.maximum + offset)
    pure ⟨s.minimum, maximum, divisor⟩

/-- `bounds` hold the point `x` moved by any point of the axes, and `divisor` divides the strides. -/
theorem AffineBounds.extend_spec {s t : AffineBounds} {axis : Nat × Int} (h : s.extend axis = some t) :
    (∀ x : Int, ∀ coordinate < axis.1, s.minimum ≤ x → x ≤ s.maximum →
      t.minimum ≤ x + coordinate * axis.2 ∧ x + coordinate * axis.2 ≤ t.maximum) ∧
    t.divisor ∣ s.divisor ∧ (t.divisor : Int) ∣ axis.2 := by
  obtain ⟨extent, stride⟩ := axis
  simp only [AffineBounds.extend, Option.bind_eq_bind, Option.bind_eq_some_iff] at h
  obtain ⟨offset, hoffset, h⟩ := h
  have hdivisor : strideGcd s.divisor stride.natAbs ∣ s.divisor ∧
      ((strideGcd s.divisor stride.natAbs : Nat) : Int) ∣ stride := by
    rw [strideGcd_eq]
    exact ⟨Nat.gcd_dvd_left _ _, Int.natCast_dvd.2 (Nat.gcd_dvd_right _ _)⟩
  have hvalue := checkedI128_value hoffset
  have hrange : ∀ coordinate : Nat, coordinate < extent → (coordinate : Int) ≤ ((extent - 1 : Nat) : Int) := by
    intro coordinate hlt
    omega
  split at h
  · next hneg =>
    obtain ⟨minimum, hminimum, heq⟩ := Option.bind_eq_some_iff.1 h
    obtain rfl := Option.some.inj heq
    have hmin := checkedI128_value hminimum
    refine ⟨fun x coordinate hlt hlow hhigh => ?_, hdivisor⟩
    have hc := hrange coordinate hlt
    have hstride : stride < 0 := by
      by_contra hpos
      have : (0 : Int) ≤ ((extent - 1 : Nat) : Int) * stride := mul_nonneg (Int.natCast_nonneg _) (not_lt.1 hpos)
      omega
    have hlast : ((extent - 1 : Nat) : Int) * stride ≤ coordinate * stride :=
      mul_le_mul_of_nonpos_right hc hstride.le
    have hzero : (coordinate : Int) * stride ≤ 0 := mul_nonpos_of_nonneg_of_nonpos (Int.natCast_nonneg _) hstride.le
    dsimp only at hlow hhigh ⊢
    exact ⟨by omega, by omega⟩
  · next hpos =>
    obtain ⟨maximum, hmaximum, heq⟩ := Option.bind_eq_some_iff.1 h
    obtain rfl := Option.some.inj heq
    have hmax := checkedI128_value hmaximum
    refine ⟨fun x coordinate hlt hlow hhigh => ?_, hdivisor⟩
    have hc := hrange coordinate hlt
    by_cases hstride : 0 ≤ stride
    · have hlast : (coordinate : Int) * stride ≤ ((extent - 1 : Nat) : Int) * stride :=
        mul_le_mul_of_nonneg_right hc hstride
      have hzero : 0 ≤ (coordinate : Int) * stride := mul_nonneg (Int.natCast_nonneg _) hstride
      dsimp only at hlow hhigh ⊢
      exact ⟨by omega, by omega⟩
    · -- a falling axis with no negative last point has one point
      have hextent : ((extent - 1 : Nat) : Int) = 0 := by
        by_contra hne
        have : ((extent - 1 : Nat) : Int) * stride < 0 := mul_neg_of_pos_of_neg (by omega) (not_le.1 hstride)
        omega
      have hcoordinate : coordinate = 0 := by omega
      subst hcoordinate
      rw [hextent] at hvalue
      simp only [Nat.cast_zero, zero_mul, add_zero] at hvalue ⊢
      exact ⟨hlow, by omega⟩

theorem AffineBounds.foldlM_spec {axes : List (Nat × Int)} {s t : AffineBounds}
    (h : axes.foldlM AffineBounds.extend s = some t) :
    (∀ x : Int, s.minimum ≤ x → x ≤ s.maximum → ∀ coordinates, InDomain (axes.map (·.1)) coordinates →
      t.minimum ≤ x + affineOffset (axes.map (·.2)) coordinates ∧
        x + affineOffset (axes.map (·.2)) coordinates ≤ t.maximum) ∧
    t.divisor ∣ s.divisor ∧ ∀ stride ∈ axes.map (·.2), (t.divisor : Int) ∣ stride := by
  induction axes generalizing s with
  | nil =>
    obtain rfl := Option.some.inj h
    refine ⟨fun x hlow hhigh coordinates hdomain => ?_, dvd_rfl, by simp⟩
    obtain rfl := List.forall₂_nil_right_iff.1 hdomain
    simpa using ⟨hlow, hhigh⟩
  | cons axis axes ih =>
    rw [List.foldlM_cons] at h
    obtain ⟨u, hu, hrest⟩ := Option.bind_eq_some_iff.1 h
    obtain ⟨hbounds, hdvd, hstride⟩ := extend_spec hu
    obtain ⟨ihbounds, ihdvd, ihstrides⟩ := ih hrest
    refine ⟨fun x hlow hhigh coordinates hdomain => ?_, ihdvd.trans hdvd, ?_⟩
    · obtain ⟨coordinate, rest, hlt, hdomain', rfl⟩ := List.forall₂_cons_right_iff.1 hdomain
      obtain ⟨hlow', hhigh'⟩ := hbounds x coordinate hlt hlow hhigh
      have := ihbounds _ hlow' hhigh' rest hdomain'
      rwa [List.map_cons, affineOffset_cons, ← add_assoc]
    · intro stride hmem
      rcases List.mem_cons.1 hmem with rfl | hmem
      · exact (Int.natCast_dvd_natCast.2 ihdvd).trans hstride
      · exact ihstrides stride hmem

/-- An image with its bounds; they hold for every point of the box. -/
structure AffineYDependency where
  base : Int
  extents : List Nat
  strides : List Int
  bounds : AffineBounds
  rank : extents.length = strides.length
  within : ∀ coordinates, InDomain extents coordinates →
    bounds.minimum ≤ base + affineOffset strides coordinates ∧ base + affineOffset strides coordinates ≤ bounds.maximum
  divides : ∀ stride ∈ strides, (bounds.divisor : Int) ∣ stride

namespace AffineYDependency

def checked (base : Nat) (extents : List Nat) (strides : List Int) :
    Except CompactYDependencyError AffineYDependency :=
  if hrank : extents.length = strides.length then
    match hbounds : (extents.zip strides).foldlM AffineBounds.extend ⟨base, base, 0⟩ with
    | none => .error .indexOverflow
    | some bounds =>
      if bounds.minimum < 0 ∨ (usizeLimit : Int) ≤ bounds.maximum then .error .indexOverflow
      else
        have hspec := AffineBounds.foldlM_spec hbounds
        .ok
          { base := base
            extents := extents
            strides := strides
            bounds := bounds
            rank := hrank
            within := by
              intro coordinates hdomain
              have := hspec.1 base le_rfl le_rfl coordinates
              rw [List.map_fst_zip hrank.le, List.map_snd_zip hrank.ge] at this
              exact this hdomain
            divides := by
              have := hspec.2.2
              rwa [List.map_snd_zip hrank.ge] at this }
  else .error .rankMismatch

def Reads (image : AffineYDependency) (index : Nat) : Prop :=
  ∃ coordinates, InDomain image.extents coordinates ∧ (index : Int) = image.base + affineOffset image.strides coordinates

def oneDimensionalContains (base stride : Int) (extent : Nat) (index : Int) : Bool :=
  if stride = 0 then index = base
  else if (index - base).tmod stride ≠ 0 then false
  else
    let ordinal := (index - base).tdiv stride
    0 ≤ ordinal && ordinal < extent

def mayContain (image : AffineYDependency) (index : Nat) : Bool :=
  if (index : Int) < image.bounds.minimum ∨ image.bounds.maximum < index then false
  else
    match image.strides, image.extents with
    | [stride], extent :: _ => oneDimensionalContains image.base stride extent index
    | _, _ =>
      image.bounds.divisor = 0 || (((index : Int) - image.base).natAbs % image.bounds.divisor = 0)

theorem dvd_affineOffset {divisor : Int} {strides : List Int} (h : ∀ stride ∈ strides, divisor ∣ stride) :
    ∀ coordinates, divisor ∣ affineOffset strides coordinates := by
  induction strides with
  | nil => intro coordinates; cases coordinates <;> exact dvd_zero _
  | cons stride strides ih =>
    rintro (_ | ⟨coordinate, coordinates⟩)
    · exact dvd_zero _
    · rw [affineOffset_cons]
      exact (dvd_mul_of_dvd_right (h stride (List.mem_cons_self ..)) _).add
        (ih (fun s hs => h s (List.mem_cons_of_mem _ hs)) coordinates)

theorem mayContain_of_reads {image : AffineYDependency} {index : Nat} (h : image.Reads index) :
    image.mayContain index = true := by
  obtain ⟨coordinates, hdomain, hindex⟩ := h
  obtain ⟨hlow, hhigh⟩ := image.within coordinates hdomain
  rw [← hindex] at hlow hhigh
  rw [mayContain, if_neg (by omega)]
  split
  · next stride extent _ hstrides hextents =>
    rw [hstrides] at hindex
    rw [hextents] at hdomain
    obtain ⟨coordinate, rest, hlt, -, rfl⟩ := List.forall₂_cons_right_iff.1 hdomain
    have hdelta : (index : Int) - image.base = coordinate * stride := by
      rw [hindex, affineOffset_cons]
      cases rest <;> simp [affineOffset]
    unfold oneDimensionalContains
    by_cases hzero : stride = 0
    · rw [if_pos hzero]
      rw [hzero, mul_zero] at hdelta
      simpa using sub_eq_zero.1 hdelta
    · rw [if_neg hzero, hdelta, Int.mul_tmod_left, if_neg (by simp), Int.mul_tdiv_cancel _ hzero]
      simpa using hlt
  · have hdvd : (image.bounds.divisor : Int) ∣ (index : Int) - image.base := by
      rw [hindex, add_sub_cancel_left]
      exact dvd_affineOffset image.divides coordinates
    rw [Bool.or_eq_true]
    exact .inr (by simpa using Nat.mod_eq_zero_of_dvd (Int.natCast_dvd.1 hdvd))

end AffineYDependency

/-! ## Relations -/

structure CompactYDependencySet where
  explicit : List Nat
  ranges : List (Nat × Nat)
  affineImages : List AffineYDependency

namespace CompactYDependencySet

def fromExplicit (explicit : List Nat) : CompactYDependencySet := ⟨explicit, [], []⟩

def Reads (set : CompactYDependencySet) (index : Nat) : Prop :=
  index ∈ set.explicit ∨ (∃ range ∈ set.ranges, range.1 ≤ index ∧ index < range.2) ∨
    ∃ image ∈ set.affineImages, image.Reads index

def mayContain (set : CompactYDependencySet) (index : Nat) : Bool :=
  index ∈ set.explicit || set.ranges.any (fun range => range.1 ≤ index && index < range.2) ||
    set.affineImages.any (·.mayContain index)

theorem mayContain_of_reads {set : CompactYDependencySet} {index : Nat} (h : set.Reads index) :
    set.mayContain index = true := by
  rw [mayContain, Bool.or_eq_true, Bool.or_eq_true]
  rcases h with hexplicit | ⟨range, hrange, hlow, hhigh⟩ | ⟨image, himage, hreads⟩
  · exact .inl (.inl (by simpa using hexplicit))
  · exact .inl (.inr (List.any_eq_true.2 ⟨range, hrange, by simp [hlow, hhigh]⟩))
  · exact .inr (List.any_eq_true.2 ⟨image, himage, AffineYDependency.mayContain_of_reads hreads⟩)

/-- `into_seed_stack`: the candidates the relation may contain, each once, in the order they are pushed. -/
def seedStack (set : CompactYDependencySet) (candidates : List Nat) : List Nat :=
  candidates.foldl (fun stack index => if set.mayContain index && !stack.contains index then stack ++ [index] else stack) []

theorem mem_seedStack {set : CompactYDependencySet} {candidates : List Nat} {index : Nat} :
    index ∈ set.seedStack candidates ↔ index ∈ candidates ∧ set.mayContain index = true := by
  induction candidates using List.reverseRecOn with
  | nil => simp [seedStack]
  | append_singleton candidates candidate ih =>
    have hfold : set.seedStack (candidates ++ [candidate]) =
        if set.mayContain candidate && !(set.seedStack candidates).contains candidate then
          set.seedStack candidates ++ [candidate]
        else set.seedStack candidates := by
      rw [seedStack, List.foldl_append]
      rfl
    rw [hfold]
    split
    · next h =>
      have hmay : set.mayContain candidate = true := (Bool.and_eq_true_iff.1 h).1
      rw [List.mem_append, ih, List.mem_append, List.mem_singleton]
      constructor
      · rintro (⟨hmem, hcontains⟩ | rfl)
        · exact ⟨.inl hmem, hcontains⟩
        · exact ⟨.inr rfl, hmay⟩
      · rintro ⟨hmem | rfl, hcontains⟩
        · exact .inl ⟨hmem, hcontains⟩
        · exact .inr rfl
    · next h =>
      rw [ih, List.mem_append, List.mem_singleton]
      refine ⟨fun ⟨hmem, hcontains⟩ => ⟨.inl hmem, hcontains⟩, ?_⟩
      rintro ⟨hmem | rfl, hcontains⟩
      · exact ⟨hmem, hcontains⟩
      · rw [hcontains, Bool.true_and, Bool.not_eq_true', Bool.not_eq_false, List.contains_iff_mem] at h
        exact ih.1 h

end CompactYDependencySet

end Rumoca.Eval
