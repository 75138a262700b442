import Mathlib.Data.Char
import Mathlib.Data.List.Sort
import Rumoca.Flatten.PathText
/-!
# The order of expanded elements

Connection expansion sorts the elements of an array by their names before it pairs
the two sides. The order goes segment by segment: the name without subscripts, then
the index groups. Two groups of one integer each compare as integers, any other two
as text. On the names of one array the order is that of the index vectors exactly
when the first groups that differ never put text against it.
-/

namespace Rumoca.Flatten

open Rumoca.Lib

/-! ## The comparison -/

def compareGroup (left right : Text) : Ordering :=
  match parseIndexGroupValue left, parseIndexGroupValue right with
  | some leftValue, some rightValue => compareOfLessAndEq leftValue rightValue
  | _, _ => compareOfLessAndEq left right

def groupsOf (indices : Option Text) : List Text := (indices.bind balancedIndexGroups).getD []

def compareIndexGroups (left right : Option Text) : Ordering :=
  ((groupsOf left).zip (groupsOf right)).foldr (fun groups rest => (compareGroup groups.1 groups.2).then rest)
    (compare (groupsOf left).length (groupsOf right).length)

/-- The loop over the segments of both names, at most `fuel` of them. -/
def comparePathFrom : (fuel : Nat) → (leftTail rightTail : Text) → Ordering
  | 0, _, _ => .eq
  | fuel + 1, leftTail, rightTail =>
    match popOrderSegment leftTail, popOrderSegment rightTail with
    | some (leftPart, leftTail), some (rightPart, rightTail) =>
      (compareOfLessAndEq (stripArrayIndex leftPart) (stripArrayIndex rightPart)).then
        ((compareIndexGroups (extractArrayIndex leftPart) (extractArrayIndex rightPart)).then
          (comparePathFrom fuel leftTail rightTail))
    | leftPart, rightPart => compare leftPart.isSome rightPart.isSome

def comparePathIndexOrder (left right : Text) : Ordering := comparePathFrom (left.length + 1) left right

/-- `sort_by` with the path order. -/
def sortPaths (names : List Text) : List Text :=
  names.mergeSort fun left right => (comparePathIndexOrder left right).isLE

/-- The pairs that `connect_array_output_variables` joins when both sides expand; `none` is another case. -/
def expandedPairs (expandedA expandedB : List Text) : Option (List (Text × Text)) :=
  if expandedA ≠ [] ∧ expandedA.length = expandedB.length then some ((sortPaths expandedA).zip (sortPaths expandedB))
  else none

/-! ## Index vectors -/

def orderSegmentsFrom : (fuel : Nat) → Text → List Text
  | 0, _ => []
  | fuel + 1, tail =>
    match popOrderSegment tail with
    | some (segment, rest) => segment :: orderSegmentsFrom fuel rest
    | none => []

def orderSegments (name : Text) : List Text := orderSegmentsFrom name.length name

def groupsOfSegment (segment : Text) : List Text := groupsOf (extractArrayIndex segment)

def groupValues (group : Text) : List Int := (parseLiteralIndexGroupValues group).getD []

def indexGroups (name : Text) : List Text := (orderSegments name).flatMap groupsOfSegment

/-- The coordinates of a name. Row-major order is the lexicographic order of these. -/
def indexVector (name : Text) : List Int := (indexGroups name).flatMap groupValues

/-- A segment of a declared path: its name, and how many literal coordinates select from it. -/
def SelectsFrom (declared : Text × Nat) (segment : Text) : Prop :=
  stripArrayIndex segment = declared.1 ∧
    (∀ group ∈ groupsOfSegment segment, (parseLiteralIndexGroupValues group).isSome) ∧
    ((groupsOfSegment segment).flatMap groupValues).length = declared.2

instance (declared : Text × Nat) (segment : Text) : Decidable (SelectsFrom declared segment) :=
  inferInstanceAs (Decidable (_ ∧ _ ∧ _))

/-- The name of an element of the path declared as `path`, in comma groups or nested groups. -/
def ElementOf (path : List (Text × Nat)) (name : Text) : Prop := List.Forall₂ SelectsFrom path (orderSegments name)

instance (path : List (Text × Nat)) (name : Text) : Decidable (ElementOf path name) :=
  inferInstanceAs (Decidable (List.Forall₂ _ _ _))

def SameGroup (left right : Text) : Prop :=
  left = right ∨ ((parseIndexGroupValue left).isSome ∧ parseIndexGroupValue left = parseIndexGroupValue right)

instance (left right : Text) : Decidable (SameGroup left right) := inferInstanceAs (Decidable (_ ∨ _))

def firstDifference : (left right : List Text) → Option (Text × Text)
  | l :: ls, r :: rs => if SameGroup l r then firstDifference ls rs else some (l, r)
  | _, _ => none

/-- Where the groups of two names first differ, both are single integers or their texts are in order. -/
def GroupsInOrder (left right : Text) : Prop :=
  ∀ groups ∈ firstDifference (indexGroups left) (indexGroups right),
    ((parseIndexGroupValue groups.1).isSome ∧ (parseIndexGroupValue groups.2).isSome) ∨
      (indexVector left < indexVector right ∧ groups.1 < groups.2) ∨
      (indexVector right < indexVector left ∧ groups.2 < groups.1)

/-- The path order on these names is a total preorder whose keys are the index vectors, and sorts them row-major. -/
structure SortsRowMajor (names : List Text) : Prop where
  key : ∀ left ∈ names, ∀ right ∈ names,
    comparePathIndexOrder left right = .eq ↔ indexVector left = indexVector right
  swap : ∀ left ∈ names, ∀ right ∈ names, comparePathIndexOrder right left = (comparePathIndexOrder left right).swap
  trans : ∀ left ∈ names, ∀ middle ∈ names, ∀ right ∈ names, (comparePathIndexOrder left middle).isLE →
    (comparePathIndexOrder middle right).isLE → (comparePathIndexOrder left right).isLE
  sorted : (sortPaths names).Pairwise fun left right => indexVector left ≤ indexVector right

/-! ## The order of two values -/

section
variable {α : Type} [LinearOrder α] [DecidableLT α] [DecidableEq α] (l r : α)

theorem order_eq : compareOfLessAndEq l r = .eq ↔ l = r := compareOfLessAndEq_eq_eq le_refl not_le

theorem order_lt : compareOfLessAndEq l r = .lt ↔ l < r := compareOfLessAndEq_eq_lt

theorem order_gt : compareOfLessAndEq l r = .gt ↔ r < l :=
  compareOfLessAndEq_eq_gt le_antisymm le_total not_le l r

theorem order_isLE : (compareOfLessAndEq l r).isLE = decide (l ≤ r) := by
  rcases lt_trichotomy l r with h | h | h
  · simp [(order_lt l r).mpr h, h.le]
  · simp [(order_eq l r).mpr h, h.le]
  · simp [(order_gt l r).mpr h, h]

theorem order_swap : compareOfLessAndEq r l = (compareOfLessAndEq l r).swap := by
  rcases lt_trichotomy l r with h | h | h
  · simp [(order_lt l r).mpr h, (order_gt r l).mpr h]
  · simp [(order_eq l r).mpr h, (order_eq r l).mpr h.symm]
  · simp [(order_gt l r).mpr h, (order_lt r l).mpr h]

end

/-- Behind a common start the order of two lists is that of the first entries that differ. -/
theorem order_append {l r : Int} (common ls rs : List Int) (h : l ≠ r) :
    compareOfLessAndEq (common ++ l :: ls) (common ++ r :: rs) = compareOfLessAndEq l r := by
  rcases lt_or_gt_of_ne h with h | h
  · rw [(order_lt l r).mpr h, order_lt]
    exact List.append_left_lt (List.cons_lt_cons_iff.mpr (.inl h))
  · rw [(order_gt l r).mpr h, order_gt]
    exact List.append_left_lt (List.cons_lt_cons_iff.mpr (.inl h))

/-! ## Groups -/

theorem parseIndexGroupValue_eq_some {group : Text} {value : Int} :
    parseIndexGroupValue group = some value ↔ parseLiteralIndexGroupValues group = some [value] := by
  unfold parseIndexGroupValue
  split <;> simp_all

theorem parseLiteralIndexGroupValues_ne_nil {group : Text} {values : List Int}
    (h : parseLiteralIndexGroupValues group = some values) : values ≠ [] := by
  rintro rfl
  obtain ⟨part, hpart⟩ := List.exists_mem_of_ne_nil _ (List.splitOn_ne_nil ',' (group.drop 1).dropLast)
  obtain ⟨value, hvalue, -⟩ := mapM_forall h part hpart
  exact List.not_mem_nil hvalue

theorem groupValues_single {group : Text} {value : Int} (h : parseIndexGroupValue group = some value) :
    groupValues group = [value] := by
  simp [groupValues, parseIndexGroupValue_eq_some.mp h]

theorem SameGroup.values {left right : Text} (h : SameGroup left right) : groupValues left = groupValues right := by
  obtain rfl | ⟨hs, he⟩ := h
  · rfl
  · obtain ⟨value, hv⟩ := Option.isSome_iff_exists.mp hs
    rw [groupValues_single hv, groupValues_single (he.symm.trans hv)]

theorem compareGroup_eq {left right : Text} : compareGroup left right = .eq ↔ SameGroup left right := by
  unfold compareGroup SameGroup
  split
  · next l r hl hr =>
    simp only [order_eq, hl, hr, Option.isSome_some, Option.some_inj, true_and]
    refine ⟨.inr, ?_⟩
    rintro (rfl | h)
    · simpa [hl] using hr
    · exact h
  · next h =>
    refine (order_eq left right).trans ⟨.inl, ?_⟩
    rintro (h' | ⟨hs, he⟩)
    · exact h'
    · obtain ⟨value, hv⟩ := Option.isSome_iff_exists.mp hs
      exact (h value value hv (he.symm.trans hv)).elim

theorem foldr_compareGroup (last : Ordering) (ls rs : List Text) :
    (ls.zip rs).foldr (fun groups rest => (compareGroup groups.1 groups.2).then rest) last =
      (firstDifference ls rs).elim last fun groups => compareGroup groups.1 groups.2 := by
  fun_induction firstDifference ls rs with
  | case1 l ls r rs h ih => simp [compareGroup_eq.mpr h, ih]
  | case2 l ls r rs h =>
    have hne := mt compareGroup_eq.mp h
    cases hc : compareGroup l r with
    | eq => exact absurd hc hne
    | lt => simp [hc]
    | gt => simp [hc]
  | case3 ls rs h =>
    cases ls with
    | nil => rfl
    | cons l ls =>
      cases rs with
      | nil => rfl
      | cons r rs => exact (h l ls r rs rfl rfl).elim

/-! ## The first difference -/

theorem firstDifference_some {ls rs : List Text} {groups : Text × Text} (h : firstDifference ls rs = some groups) :
    ¬ SameGroup groups.1 groups.2 ∧ ∃ lsBefore lsAfter rsBefore rsAfter, ls = lsBefore ++ groups.1 :: lsAfter ∧
      rs = rsBefore ++ groups.2 :: rsAfter ∧ lsBefore.flatMap groupValues = rsBefore.flatMap groupValues := by
  fun_induction firstDifference ls rs with
  | case1 l ls r rs hlr ih =>
    obtain ⟨hne, lsBefore, lsAfter, rsBefore, rsAfter, rfl, rfl, heq⟩ := ih h
    exact ⟨hne, l :: lsBefore, lsAfter, r :: rsBefore, rsAfter, rfl, rfl, by simp [hlr.values, heq]⟩
  | case2 l ls r rs hlr =>
    obtain rfl := Option.some.inj h
    exact ⟨hlr, [], ls, [], rs, rfl, rfl, rfl⟩
  | case3 => cases h

theorem flatMap_groupValues_eq_nil {groups : List Text}
    (hg : ∀ group ∈ groups, (parseLiteralIndexGroupValues group).isSome)
    (h : (groups.flatMap groupValues).length = 0) : groups = [] := by
  cases groups with
  | nil => rfl
  | cons group groups =>
    obtain ⟨values, hv⟩ := Option.isSome_iff_exists.mp (hg group (by simp))
    have hne := parseLiteralIndexGroupValues_ne_nil hv
    simp [groupValues, hv, hne] at h

theorem firstDifference_none {ls rs : List Text} (hl : ∀ group ∈ ls, (parseLiteralIndexGroupValues group).isSome)
    (hr : ∀ group ∈ rs, (parseLiteralIndexGroupValues group).isSome)
    (hlen : (ls.flatMap groupValues).length = (rs.flatMap groupValues).length) (h : firstDifference ls rs = none) :
    List.Forall₂ SameGroup ls rs := by
  fun_induction firstDifference ls rs with
  | case1 l ls r rs hlr ih =>
    simp only [List.flatMap_cons, List.length_append, hlr.values] at hlen
    exact .cons hlr (ih (fun g hg => hl g (by simp [hg])) (fun g hg => hr g (by simp [hg])) (by omega) h)
  | case2 => cases h
  | case3 ls rs hnot =>
    cases ls with
    | nil =>
      obtain rfl := flatMap_groupValues_eq_nil hr (by simpa using hlen.symm)
      exact .nil
    | cons l ls =>
      cases rs with
      | nil =>
        have := flatMap_groupValues_eq_nil hl (by simpa using hlen)
        cases this
      | cons r rs => exact (hnot l ls r rs rfl rfl).elim

theorem firstDifference_append {ls rs : List Text} (h : List.Forall₂ SameGroup ls rs) (ls' rs' : List Text) :
    firstDifference (ls ++ ls') (rs ++ rs') = firstDifference ls' rs' := by
  induction h with
  | nil => rfl
  | cons hlr _ ih => simp [firstDifference, hlr, ih]

theorem firstDifference_append_some {ls rs : List Text} {groups : Text × Text}
    (h : firstDifference ls rs = some groups) (ls' rs' : List Text) :
    firstDifference (ls ++ ls') (rs ++ rs') = some groups := by
  fun_induction firstDifference ls rs with
  | case1 l ls r rs hlr ih => simp [firstDifference, hlr, ih h]
  | case2 l ls r rs hlr => simpa [firstDifference, hlr] using h
  | case3 => cases h

theorem flatMap_groupValues_same {ls rs : List Text} (h : List.Forall₂ SameGroup ls rs) :
    ls.flatMap groupValues = rs.flatMap groupValues := by
  induction h with
  | nil => rfl
  | cons hlr _ ih => simp [hlr.values, ih]

/-! ## Segments -/

theorem popFrom_length (tail : Text) (depth : Nat) (before : Text) :
    (popFrom tail depth before).2.length ≤ tail.length - 1 := by
  fun_induction popFrom tail depth before with
  | case1 => simp
  | case2 | case3 | case5 => simp only [List.length_cons]; omega
  | case4 => simp

theorem popOrderSegment_length {tail segment rest : Text} (h : popOrderSegment tail = some (segment, rest)) :
    rest.length < tail.length := by
  unfold popOrderSegment at h
  split at h
  · cases h
  · next hne =>
    have hl := popFrom_length tail 0 []
    rw [Option.some.inj h] at hl
    have := List.length_pos_iff.mpr hne
    dsimp only at hl
    omega

theorem orderSegmentsFrom_eq {fuel : Nat} {tail : Text} (h : tail.length ≤ fuel) :
    orderSegmentsFrom fuel tail = orderSegments tail := by
  suffices hs : ∀ fuel fuel' tail, tail.length ≤ fuel → tail.length ≤ fuel' →
      orderSegmentsFrom fuel tail = orderSegmentsFrom fuel' tail from hs _ _ _ h le_rfl
  clear h
  intro fuel
  induction fuel with
  | zero =>
    intro fuel' tail h _
    obtain rfl := List.length_eq_zero_iff.mp (Nat.le_zero.mp h)
    cases fuel' <;> rfl
  | succ fuel ih =>
    intro fuel' tail h h'
    cases fuel' with
    | zero =>
      obtain rfl := List.length_eq_zero_iff.mp (Nat.le_zero.mp h')
      rfl
    | succ fuel' =>
      unfold orderSegmentsFrom
      cases hp : popOrderSegment tail with
      | none => rfl
      | some part =>
        have := popOrderSegment_length hp
        exact congrArg (part.1 :: ·) (ih fuel' part.2 (by omega) (by omega))

theorem orderSegments_some {tail segment rest : Text} (h : popOrderSegment tail = some (segment, rest)) :
    orderSegments tail = segment :: orderSegments rest := by
  have hl := popOrderSegment_length h
  rw [← orderSegmentsFrom_eq (Nat.le_succ tail.length), orderSegmentsFrom, h]
  exact congrArg (segment :: ·) (orderSegmentsFrom_eq hl.le)

theorem orderSegments_none {tail : Text} (h : popOrderSegment tail = none) : orderSegments tail = [] := by
  rw [← orderSegmentsFrom_eq (Nat.le_succ tail.length), orderSegmentsFrom, h]

def compareSegments : (left right : List Text) → Ordering
  | l :: ls, r :: rs =>
    (compareOfLessAndEq (stripArrayIndex l) (stripArrayIndex r)).then
      ((compareIndexGroups (extractArrayIndex l) (extractArrayIndex r)).then (compareSegments ls rs))
  | ls, rs => compare (!ls.isEmpty) (!rs.isEmpty)

theorem comparePathFrom_eq {fuel : Nat} {left : Text} (right : Text) (h : left.length < fuel) :
    comparePathFrom fuel left right = compareSegments (orderSegments left) (orderSegments right) := by
  induction fuel generalizing left right with
  | zero => omega
  | succ fuel ih =>
    unfold comparePathFrom
    cases hl : popOrderSegment left with
    | none =>
      rw [orderSegments_none hl]
      cases hr : popOrderSegment right with
      | none => rw [orderSegments_none hr]; rfl
      | some r => rw [orderSegments_some hr]; rfl
    | some l =>
      have := popOrderSegment_length hl
      rw [orderSegments_some hl]
      cases hr : popOrderSegment right with
      | none => rw [orderSegments_none hr]; rfl
      | some r => rw [orderSegments_some hr, compareSegments, ← ih r.2 (by omega)]

theorem compareSegments_elements {path : List (Text × Nat)} {ls rs : List Text} (hl : List.Forall₂ SelectsFrom path ls)
    (hr : List.Forall₂ SelectsFrom path rs) :
    compareSegments ls rs = (firstDifference (ls.flatMap groupsOfSegment) (rs.flatMap groupsOfSegment)).elim .eq
      fun groups => compareGroup groups.1 groups.2 := by
  induction hl generalizing rs with
  | nil => cases hr; rfl
  | @cons _ l _ _ hl _ ih =>
    cases hr with
    | @cons _ r _ rs hr hrs =>
      obtain ⟨hlName, hlLiteral, hlRank⟩ := hl
      obtain ⟨hrName, hrLiteral, hrRank⟩ := hr
      rw [compareSegments, (order_eq _ _).mpr (hlName.trans hrName.symm), Ordering.eq_then, compareIndexGroups,
        foldr_compareGroup, List.flatMap_cons, List.flatMap_cons]
      cases hd : firstDifference (groupsOfSegment l) (groupsOfSegment r) with
      | none =>
        have hsame := firstDifference_none hlLiteral hrLiteral (hlRank.trans hrRank.symm) hd
        rw [firstDifference_append hsame, ← ih hrs]
        simp only [groupsOfSegment] at hd hsame
        simp [hd, hsame.length_eq]
      | some groups =>
        rw [firstDifference_append_some hd]
        simp only [groupsOfSegment] at hd
        rw [hd]
        have hne := mt compareGroup_eq.mp (firstDifference_some hd).1
        cases hc : compareGroup groups.1 groups.2 with
        | eq => exact absurd hc hne
        | lt => simp [hc]
        | gt => simp [hc]

theorem comparePathIndexOrder_elements {path : List (Text × Nat)} {left right : Text} (hl : ElementOf path left)
    (hr : ElementOf path right) :
    comparePathIndexOrder left right = (firstDifference (indexGroups left) (indexGroups right)).elim .eq
      fun groups => compareGroup groups.1 groups.2 :=
  (comparePathFrom_eq right (Nat.lt_succ_self _)).trans (compareSegments_elements hl hr)

/-! ## Row-major order -/

theorem ElementOf.literal {path : List (Text × Nat)} {name : Text} (h : ElementOf path name) :
    ∀ group ∈ indexGroups name, (parseLiteralIndexGroupValues group).isSome := by
  unfold ElementOf at h
  unfold indexGroups
  generalize orderSegments name = segments at h ⊢
  induction h with
  | nil => simp
  | cons hs _ ih =>
    intro group hg
    rw [List.flatMap_cons, List.mem_append] at hg
    exact hg.elim (hs.2.1 group) (ih group)

theorem ElementOf.rank {path : List (Text × Nat)} {name : Text} (h : ElementOf path name) :
    (indexVector name).length = (path.map (·.2)).sum := by
  unfold ElementOf at h
  unfold indexVector indexGroups
  generalize orderSegments name = segments at h ⊢
  induction h with
  | nil => rfl
  | cons hs _ ih =>
    rw [List.flatMap_cons, List.flatMap_append, List.length_append, ih, hs.2.2, List.map_cons, List.sum_cons]

theorem comparePathIndexOrder_iff {path : List (Text × Nat)} {left right : Text} (hl : ElementOf path left)
    (hr : ElementOf path right) :
    comparePathIndexOrder left right = compareOfLessAndEq (indexVector left) (indexVector right) ↔
      GroupsInOrder left right := by
  rw [comparePathIndexOrder_elements hl hr]
  unfold GroupsInOrder
  cases hd : firstDifference (indexGroups left) (indexGroups right) with
  | none =>
    have hsame := firstDifference_none hl.literal hr.literal (hl.rank.trans hr.rank.symm) hd
    have hv : indexVector left = indexVector right := flatMap_groupValues_same hsame
    simp [(order_eq _ _).mpr hv]
  | some groups =>
    obtain ⟨hne, lsBefore, lsAfter, rsBefore, rsAfter, hls, hrs, hbefore⟩ := firstDifference_some hd
    simp only [Option.elim_some, Option.mem_some_iff, forall_eq']
    by_cases hsingle : (parseIndexGroupValue groups.1).isSome ∧ (parseIndexGroupValue groups.2).isSome
    · -- both groups hold one integer, and the vectors agree before it
      obtain ⟨l, hl'⟩ := Option.isSome_iff_exists.mp hsingle.1
      obtain ⟨r, hr'⟩ := Option.isSome_iff_exists.mp hsingle.2
      have hlr : l ≠ r := fun h => hne (.inr ⟨hsingle.1, by rw [hl', hr', h]⟩)
      have hleft : indexVector left = lsBefore.flatMap groupValues ++ l :: lsAfter.flatMap groupValues := by
        simp [indexVector, hls, groupValues_single hl']
      have hright : indexVector right = lsBefore.flatMap groupValues ++ r :: rsAfter.flatMap groupValues := by
        simp [indexVector, hrs, groupValues_single hr', hbefore]
      refine iff_of_true ?_ (.inl hsingle)
      rw [hleft, hright, order_append _ _ _ hlr, compareGroup, hl', hr']
    · -- text decides
      have hcompare : compareGroup groups.1 groups.2 = compareOfLessAndEq groups.1 groups.2 := by
        unfold compareGroup
        split
        · next hl' hr' => exact (hsingle ⟨by simp [hl'], by simp [hr']⟩).elim
        · rfl
      rw [hcompare, or_iff_right hsingle]
      have htext : groups.1 ≠ groups.2 := fun h => hne (.inl h)
      rcases lt_trichotomy groups.1 groups.2 with h | h | h
      · rw [(order_lt _ _).mpr h, eq_comm, order_lt]
        simp [h, h.not_gt]
      · exact (htext h).elim
      · rw [(order_gt _ _).mpr h, eq_comm, order_gt]
        simp [h, h.not_gt]

def OrdersVectors (names : List Text) : Prop :=
  ∀ left ∈ names, ∀ right ∈ names,
    comparePathIndexOrder left right = compareOfLessAndEq (indexVector left) (indexVector right)

theorem OrdersVectors.sortPaths_eq {names : List Text} (h : OrdersVectors names) :
    sortPaths names = names.mergeSort fun left right => decide (indexVector left ≤ indexVector right) := by
  have hm := List.map_mergeSort (f := id) (l := names) (s := fun left right => decide (indexVector left ≤ indexVector right))
    (r := fun left right => (comparePathIndexOrder left right).isLE) fun l hl r hr => by rw [h l hl r hr, order_isLE]; rfl
  simp only [List.map_id] at hm
  exact hm

theorem OrdersVectors.sorted {names : List Text} (h : OrdersVectors names) :
    (sortPaths names).Pairwise fun left right => indexVector left ≤ indexVector right := by
  rw [h.sortPaths_eq]
  have hs : (names.mergeSort fun left right => decide (indexVector left ≤ indexVector right)).Pairwise
      fun left right => decide (indexVector left ≤ indexVector right) :=
    List.pairwise_mergeSort (fun _ _ _ hab hbc => by simp only [decide_eq_true_eq] at *; exact hab.trans hbc)
      (fun a b => by simpa using le_total (indexVector a) (indexVector b)) names
  simpa only [decide_eq_true_eq] using hs

theorem OrdersVectors.sortsRowMajor {names : List Text} (h : OrdersVectors names) : SortsRowMajor names where
  key l hl r hr := by rw [h l hl r hr, order_eq]
  swap l hl r hr := by rw [h l hl r hr, h r hr l hl, order_swap]
  trans l hl m hm r hr := by
    rw [h l hl m hm, h m hm r hr, h l hl r hr]
    simp only [order_isLE, decide_eq_true_eq]
    exact le_trans
  sorted := h.sorted

theorem pairwise_sortPaths {names : List Text} (h : SortsRowMajor names) :
    (sortPaths names).Pairwise fun left right => (comparePathIndexOrder left right).isLE := by
  have hs : (names.attach.mergeSort fun left right => (comparePathIndexOrder left.1 right.1).isLE).Pairwise
      fun left right => (comparePathIndexOrder left.1 right.1).isLE :=
    List.pairwise_mergeSort (fun a b c => h.trans a.1 a.2 b.1 b.2 c.1 c.2)
      (fun a b => by rw [h.swap a.1 a.2 b.1 b.2]; cases comparePathIndexOrder a.1 b.1 <;> rfl) names.attach
  have hm := List.map_mergeSort (f := Subtype.val) (l := names.attach)
    (r := fun left right => (comparePathIndexOrder left.1 right.1).isLE)
    (s := fun left right => (comparePathIndexOrder left right).isLE) fun _ _ _ _ => rfl
  rw [List.attach_map_subtype_val] at hm
  rw [sortPaths, ← hm, List.pairwise_map]
  exact hs

theorem pairwise_either {α : Type} {R : α → α → Prop} {l : List α} (h : l.Pairwise R) {a b : α} (ha : a ∈ l)
    (hb : b ∈ l) (hne : a ≠ b) : R a b ∨ R b a := by
  have hsymm : Std.Symm fun a b => R a b ∨ R b a := ⟨fun _ _ => Or.symm⟩
  exact (h.imp (S := fun a b => R a b ∨ R b a) .inl).forall ha hb hne

theorem SortsRowMajor.ordersVectors {names : List Text} (h : SortsRowMajor names) : OrdersVectors names := by
  -- two names whose vectors are in order stand in that order in the sorted list
  have hlt : ∀ left ∈ names, ∀ right ∈ names, indexVector left < indexVector right →
      comparePathIndexOrder left right = .lt := by
    intro left hl right hr hv
    have hne : left ≠ right := fun he => hv.ne (he ▸ rfl)
    obtain ⟨-, hle⟩ | ⟨hle, -⟩ := pairwise_either (List.Pairwise.and h.sorted (pairwise_sortPaths h))
      (List.mem_mergeSort.mpr hl) (List.mem_mergeSort.mpr hr) hne
    · have hkey := mt (h.key left hl right hr).mp hv.ne
      revert hle hkey
      cases comparePathIndexOrder left right <;> simp
    · exact absurd hle hv.not_ge
  intro left hl right hr
  rcases lt_trichotomy (indexVector left) (indexVector right) with hv | hv | hv
  · rw [hlt left hl right hr hv, (order_lt _ _).mpr hv]
  · rw [(h.key left hl right hr).mpr hv, (order_eq _ _).mpr hv]
  · rw [h.swap right hr left hl, hlt right hr left hl hv, (order_gt _ _).mpr hv]
    rfl

/-! ## The pairs of two sides -/

theorem zip_of_map_eq {α β γ : Type} {f : α → γ} {g : β → γ} {as : List α} {bs : List β} (h : as.map f = bs.map g) :
    ∀ pair ∈ as.zip bs, f pair.1 = g pair.2 := by
  induction as generalizing bs with
  | nil => simp
  | cons a as ih =>
    cases bs with
    | nil => simp
    | cons b bs =>
      simp only [List.map_cons, List.cons.injEq] at h
      rw [List.zip_cons_cons, List.forall_mem_cons]
      exact ⟨h.1, ih h.2⟩

theorem expandedPairs_aligned {expandedA expandedB : List Text} {pairs : List (Text × Text)}
    (ha : OrdersVectors expandedA) (hb : OrdersVectors expandedB)
    (hshape : (expandedA.map indexVector).Perm (expandedB.map indexVector))
    (hp : expandedPairs expandedA expandedB = some pairs) : ∀ pair ∈ pairs, indexVector pair.1 = indexVector pair.2 := by
  unfold expandedPairs at hp
  split at hp
  · obtain rfl := Option.some.inj hp
    apply zip_of_map_eq
    have hperm : ((sortPaths expandedA).map indexVector).Perm ((sortPaths expandedB).map indexVector) :=
      ((List.mergeSort_perm _ _).map _).trans (hshape.trans ((List.mergeSort_perm _ _).map _).symm)
    exact hperm.eq_of_pairwise' (List.pairwise_map.mpr ha.sorted) (List.pairwise_map.mpr hb.sorted)
  · cases hp

theorem ordersVectors_iff {path : List (Text × Nat)} {names : List Text} (h : ∀ name ∈ names, ElementOf path name) :
    OrdersVectors names ↔ ∀ left ∈ names, ∀ right ∈ names, GroupsInOrder left right :=
  forall₂_congr fun left hl => forall₂_congr fun right hr => comparePathIndexOrder_iff (h left hl) (h right hr)

theorem groupsInOrder_of_single {names : List Text}
    (h : ∀ name ∈ names, ∀ group ∈ indexGroups name, (parseIndexGroupValue group).isSome) :
    ∀ left ∈ names, ∀ right ∈ names, GroupsInOrder left right := by
  intro left hl right hr groups hg
  obtain ⟨-, lsBefore, lsAfter, rsBefore, rsAfter, hls, hrs, -⟩ := firstDifference_some hg
  exact .inl ⟨h left hl _ (by simp [hls]), h right hr _ (by simp [hrs])⟩

/-- Sorting the two sides of one shape by the path order is row-major and pairs them position by position exactly
when no two names of a side differ first in groups whose text stands against their vectors. -/
theorem sortsRowMajor_iff {pathA pathB : List (Text × Nat)} {expandedA expandedB : List Text}
    (ha : ∀ name ∈ expandedA, ElementOf pathA name) (hb : ∀ name ∈ expandedB, ElementOf pathB name)
    (hshape : (expandedA.map indexVector).Perm (expandedB.map indexVector)) :
    (SortsRowMajor expandedA ∧ SortsRowMajor expandedB ∧
      ∀ pairs ∈ expandedPairs expandedA expandedB, ∀ pair ∈ pairs, indexVector pair.1 = indexVector pair.2) ↔
    (∀ left ∈ expandedA, ∀ right ∈ expandedA, GroupsInOrder left right) ∧
      ∀ left ∈ expandedB, ∀ right ∈ expandedB, GroupsInOrder left right := by
  rw [← ordersVectors_iff ha, ← ordersVectors_iff hb]
  constructor
  · rintro ⟨hsa, hsb, -⟩
    exact ⟨hsa.ordersVectors, hsb.ordersVectors⟩
  · rintro ⟨hva, hvb⟩
    exact ⟨hva.sortsRowMajor, hvb.sortsRowMajor, fun _ hp => expandedPairs_aligned hva hvb hshape hp⟩

theorem sortsRowMajor_nested :
    SortsRowMajor ["a[1][10].y".toList, "a[1][2].y".toList] ∧ SortsRowMajor ["b[1].c[2]".toList, "b[1].c[10]".toList] ∧
      ∀ pairs ∈ expandedPairs ["a[1][10].y".toList, "a[1][2].y".toList] ["b[1].c[2]".toList, "b[1].c[10]".toList],
        ∀ pair ∈ pairs, indexVector pair.1 = indexVector pair.2 := by
  have ha : ∀ name ∈ ["a[1][10].y".toList, "a[1][2].y".toList], ElementOf [("a".toList, 2), ("y".toList, 0)] name := by
    decide
  have hb : ∀ name ∈ ["b[1].c[2]".toList, "b[1].c[10]".toList], ElementOf [("b".toList, 1), ("c".toList, 1)] name := by
    decide
  exact (sortsRowMajor_iff ha hb (by decide)).mpr
    ⟨groupsInOrder_of_single (by decide), groupsInOrder_of_single (by decide)⟩

/-- Comma groups compare as text: the element `[1,10]` sorts before `[1,2]`. -/
theorem commaGroups_unsorted :
    (∀ name ∈ ["a[1,2].y".toList, "a[1,10].y".toList], ElementOf [("a".toList, 2), ("y".toList, 0)] name) ∧
      ¬ SortsRowMajor ["a[1,2].y".toList, "a[1,10].y".toList] := by
  refine ⟨by decide, fun h => ?_⟩
  have ho := h.ordersVectors "a[1,2].y".toList (by simp) "a[1,10].y".toList (by simp)
  revert ho
  decide

end Rumoca.Flatten
