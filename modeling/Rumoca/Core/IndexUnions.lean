import Rumoca.Core.IndexImage
import Rumoca.Core.CheckedProgression
/-!
# Unions of index boxes

Intersection and difference of boxes, axis by axis, and of unions of boxes.
A refusal of any step refuses the whole, or makes `contains_box` answer
`false`; `indexUnions_exact` says what the answers mean.
-/

namespace Rumoca.Core

open Rumoca.Lib

namespace Checked

/-! ## Boxes -/

def BoxHas (box : IndexBox) (index : List Int) : Prop := List.Forall₂ (fun values x => x ∈ values) box index

def boxIsEmpty (box : IndexBox) : Bool := box.any (·.count = 0)

def intersectAxes : IndexBox → IndexBox → Checked IndexBox
  | lhs :: rest, rhs :: others => do
    let common ← intersect lhs rhs
    let later ← intersectAxes rest others
    return common :: later
  | _, _ => pure []

def boxIntersect (box other : IndexBox) : Checked IndexBox :=
  if box.length ≠ other.length then throw () else intersectAxes box other

/-- The pieces from one axis on. The earlier axes of the later pieces are the
intersections; without a common element on an axis there are none. -/
def differenceAxes : IndexBox → IndexBox → Checked (List IndexBox)
  | lhs :: rest, rhs :: others => do
    let parts ← difference lhs rhs
    let common ← intersect lhs rhs
    if common.count = 0 then return parts.map (· :: rest)
    let later ← differenceAxes rest others
    return parts.map (· :: rest) ++ later.map (common :: ·)
  | _, _ => pure []

/-- `box` without `other`, as boxes without a common index. -/
def boxDifference (box other : IndexBox) : Checked (List IndexBox) :=
  if box.length ≠ other.length then throw () else differenceAxes box other

/-! ## Unions -/

def splitLimit : Nat := 4096

/-- Every piece of `pending` without `part`. -/
def subtractAll (pending : List IndexBox) (part : IndexBox) : Checked (List IndexBox) :=
  pending.foldlM (fun next piece => do
    let rest ← boxDifference piece part
    if splitLimit < (next ++ rest.filter (!boxIsEmpty ·)).length then throw ()
    else return next ++ rest.filter (!boxIsEmpty ·)) []

/-- The result, or nothing where the source's operation answers `None`. -/
def orRefused {α : Type} (x : Checked α) : Checked (Option α) :=
  ExceptT.mk ((ExceptT.run x).map fun result =>
    match result with
    | .ok a => .ok (some a)
    | .error () => .ok none)

def containsFrom : IndexUnion → (pending : List IndexBox) → Checked Bool
  | [], pending => pure (pending.all boxIsEmpty)
  | part :: rest, pending => do
    match ← orRefused (subtractAll pending part) with
    | none => return false
    | some next => if next = [] then return true else containsFrom rest next

/-- Whether every index of `query` is in the set; an undecided split counts as not contained. -/
def containsBox (set : IndexUnion) (query : IndexBox) : Checked Bool := containsFrom set [query]

def unionDifference (set other : IndexUnion) : Checked IndexUnion := other.foldlM subtractAll set

def meet (set other : IndexUnion) : Checked IndexUnion := do
  let parts ← (set.flatMap fun lhs => other.map (lhs, ·)).mapM fun (lhs, rhs) => boxIntersect lhs rhs
  return IndexUnion.of parts

/-! ## Their elements -/

variable {box other : IndexBox} {set query : IndexUnion} {parts : List IndexBox} {index : List Int}

theorem has_append {set₁ set₂ : IndexUnion} :
    IndexUnion.Has (set₁ ++ set₂) index ↔ IndexUnion.Has set₁ index ∨ IndexUnion.Has set₂ index := by
  simp only [IndexUnion.Has, List.mem_append, or_and_right, exists_or]

theorem not_has_nil : ¬ IndexUnion.Has [] index := by simp [IndexUnion.Has]

theorem has_singleton : IndexUnion.Has [box] index ↔ BoxHas box index := by simp [IndexUnion.Has, BoxHas]

theorem not_boxHas_of_isEmpty (h : boxIsEmpty box = true) : ¬ BoxHas box index := by
  rw [boxIsEmpty, List.any_eq_true] at h
  obtain ⟨axis, haxis, hzero⟩ := h
  intro hbox
  obtain ⟨x, -, hx⟩ := forall₂_mem_left hbox haxis
  exact Progression.not_mem_of_count (by simpa using hzero) hx

theorem has_filter : IndexUnion.Has (parts.filter (!boxIsEmpty ·)) index ↔ IndexUnion.Has parts index := by
  constructor
  · rintro ⟨box, hbox, h⟩
    exact ⟨box, (List.mem_filter.1 hbox).1, h⟩
  · rintro ⟨box, hbox, h⟩
    refine ⟨box, List.mem_filter.2 ⟨hbox, ?_⟩, h⟩
    by_contra hempty
    exact not_boxHas_of_isEmpty (by simpa using hempty) h

theorem intersectAxes_spec {result : IndexBox} (hlen : box.length = other.length)
    (h : intersectAxes box other = pure result) : BoxHas result index ↔ BoxHas box index ∧ BoxHas other index := by
  induction box generalizing other result index with
  | nil =>
    obtain rfl := List.eq_nil_of_length_eq_zero hlen.symm
    obtain rfl := pure_injective h
    exact (and_self_iff).symm
  | cons lhs rest ih =>
    cases other with
    | nil => cases hlen
    | cons rhs others =>
      obtain ⟨common, hcommon, h⟩ := bind_eq_pure h
      obtain ⟨later, hlater, h⟩ := bind_eq_pure h
      obtain rfl := pure_injective h
      cases index with
      | nil => exact iff_of_false (fun h => nomatch h) fun h => nomatch h.1
      | cons x index =>
        simp only [BoxHas, List.forall₂_cons]
        have hrest : BoxHas later index ↔ BoxHas rest index ∧ BoxHas others index := ih (by simpa using hlen) hlater
        simp only [BoxHas] at hrest
        rw [(intersect_spec hcommon).1 x, hrest]
        tauto

/-- The pieces hold the indices of the box outside the other one, no two of them the same. -/
theorem differenceAxes_spec (hlen : box.length = other.length) (h : differenceAxes box other = pure parts) :
    (∀ index, IndexUnion.Has parts index ↔ BoxHas box index ∧ ¬ BoxHas other index) ∧
      parts.Pairwise fun piece piece' => ∀ index, BoxHas piece index → ¬ BoxHas piece' index := by
  induction box generalizing other parts with
  | nil =>
    obtain rfl := List.eq_nil_of_length_eq_zero hlen.symm
    obtain rfl := pure_injective h
    exact ⟨fun index => iff_of_false not_has_nil fun h => h.2 h.1, .nil⟩
  | cons lhs rest ih =>
    cases other with
    | nil => cases hlen
    | cons rhs others =>
      obtain ⟨progressions, hprogressions, h⟩ := bind_eq_pure h
      obtain ⟨common, hcommon, h⟩ := bind_eq_pure h
      obtain ⟨hparts, hseparate⟩ := difference_spec hprogressions
      have hmeet := (intersect_spec hcommon).1
      -- the pieces of this axis
      have hhead : ∀ index, IndexUnion.Has (progressions.map (· :: rest)) index ↔
          ∃ x later, index = x :: later ∧ (x ∈ lhs ∧ x ∉ rhs) ∧ BoxHas rest later := by
        intro index
        constructor
        · rintro ⟨piece, hpiece, hindex⟩
          obtain ⟨part, hpart, rfl⟩ := List.mem_map.1 hpiece
          cases hindex with
          | @cons _ x _ later hx hlater => exact ⟨x, later, rfl, (hparts x).1 ⟨part, hpart, hx⟩, hlater⟩
        · rintro ⟨x, later, rfl, hx, hlater⟩
          obtain ⟨part, hpart, hx⟩ := (hparts x).2 hx
          exact ⟨part :: rest, List.mem_map_of_mem hpart, .cons hx hlater⟩
      have hpairs : (progressions.map (· :: rest)).Pairwise fun piece piece' =>
          ∀ index, BoxHas piece index → ¬ BoxHas piece' index := by
        refine List.pairwise_map.2 (hseparate.imp fun hdisjoint index h h' => ?_)
        cases h with
        | cons hx _ =>
          cases h' with
          | cons hx' _ => exact hdisjoint _ hx hx'
      have hcons : ∀ x later, (BoxHas (lhs :: rest) (x :: later) ∧ ¬ BoxHas (rhs :: others) (x :: later)) ↔
          ((x ∈ lhs ∧ x ∉ rhs) ∧ BoxHas rest later) ∨
            ((x ∈ lhs ∧ x ∈ rhs) ∧ BoxHas rest later ∧ ¬ BoxHas others later) := by
        intro x later
        simp only [BoxHas, List.forall₂_cons]
        tauto
      split at h
      · next hzero =>
        obtain rfl := pure_injective h
        refine ⟨fun index => ?_, hpairs⟩
        rw [hhead index]
        cases index with
        | nil => exact iff_of_false (fun ⟨_, _, h, _⟩ => nomatch h) fun h => nomatch h.1
        | cons x later =>
          rw [hcons x later]
          have hnone : ¬ (x ∈ lhs ∧ x ∈ rhs) := fun hx => Progression.not_mem_of_count hzero ((hmeet x).2 hx)
          simp only [List.cons.injEq, ↓existsAndEq, true_and, hnone, false_and, or_false]
      · obtain ⟨laterPieces, hlater, h⟩ := bind_eq_pure h
        obtain rfl := pure_injective h
        obtain ⟨hrest, hrestPairs⟩ := ih (by simpa using hlen) hlater
        have htail : ∀ index, IndexUnion.Has (laterPieces.map (common :: ·)) index ↔
            ∃ x later, index = x :: later ∧ (x ∈ lhs ∧ x ∈ rhs) ∧ BoxHas rest later ∧ ¬ BoxHas others later := by
          intro index
          constructor
          · rintro ⟨piece, hpiece, hindex⟩
            obtain ⟨part, hpart, rfl⟩ := List.mem_map.1 hpiece
            cases hindex with
            | @cons _ x _ later hx hl => exact ⟨x, later, rfl, (hmeet x).1 hx, (hrest later).1 ⟨part, hpart, hl⟩⟩
          · rintro ⟨x, later, rfl, hx, hl⟩
            obtain ⟨part, hpart, hl⟩ := (hrest later).2 hl
            exact ⟨common :: part, List.mem_map_of_mem hpart, .cons ((hmeet x).2 hx) hl⟩
        refine ⟨fun index => ?_, List.pairwise_append.2 ⟨hpairs, ?_, ?_⟩⟩
        · rw [has_append, hhead index, htail index]
          cases index with
          | nil => exact iff_of_false (by simp) fun h => nomatch h.1
          | cons x later =>
            rw [hcons x later]
            simp only [List.cons.injEq, ↓existsAndEq, true_and]
        · refine List.pairwise_map.2 (hrestPairs.imp fun hdisjoint index h h' => ?_)
          cases h with
          | cons _ hl =>
            cases h' with
            | cons _ hl' => exact hdisjoint _ hl hl'
        · intro piece hpiece piece' hpiece' index hindex hindex'
          obtain ⟨x, later, rfl, hx, -⟩ := (hhead index).1 ⟨piece, hpiece, hindex⟩
          obtain ⟨x', later', heq, hx', -⟩ := (htail (x :: later)).1 ⟨piece', hpiece', hindex'⟩
          obtain ⟨rfl, rfl⟩ := List.cons.inj heq
          exact hx.2 hx'.2

theorem boxDifference_spec (h : boxDifference box other = pure parts) :
    (∀ index, IndexUnion.Has parts index ↔ BoxHas box index ∧ ¬ BoxHas other index) ∧
      parts.Pairwise fun piece piece' => ∀ index, BoxHas piece index → ¬ BoxHas piece' index := by
  unfold boxDifference at h
  split at h
  · exact nomatch Option.some.inj h
  · next hlen => exact differenceAxes_spec (not_not.1 hlen) h

theorem boxIntersect_spec {result : IndexBox} (h : boxIntersect box other = pure result) :
    BoxHas result index ↔ BoxHas box index ∧ BoxHas other index := by
  unfold boxIntersect at h
  split at h
  · exact nomatch Option.some.inj h
  · next hlen => exact intersectAxes_spec (not_not.1 hlen) h

theorem subtractAll_spec {pending : List IndexBox} {part : IndexBox} (h : subtractAll pending part = pure parts) :
    IndexUnion.Has parts index ↔ IndexUnion.Has pending index ∧ ¬ BoxHas part index := by
  refine foldlM_inv_pure (fun (passed next : List IndexBox) =>
    IndexUnion.Has next index ↔ IndexUnion.Has passed index ∧ ¬ BoxHas part index)
    (fun pre piece post s s' _ hs hturn => ?_) (iff_of_false not_has_nil fun h => not_has_nil h.1) h
  obtain ⟨rest, hrest, hturn⟩ := bind_eq_pure hturn
  split at hturn
  · exact nomatch Option.some.inj hturn
  · obtain rfl := pure_injective hturn
    rw [has_append, has_filter, (boxDifference_spec hrest).1 index, hs, has_append, has_singleton]
    tauto

theorem unionDifference_spec {result : IndexUnion} (h : unionDifference set query = pure result) :
    IndexUnion.Has result index ↔ IndexUnion.Has set index ∧ ¬ IndexUnion.Has query index := by
  refine foldlM_inv_pure (fun (passed : IndexUnion) (next : List IndexBox) =>
    IndexUnion.Has next index ↔ IndexUnion.Has set index ∧ ¬ IndexUnion.Has passed index) (fun pre part post s s' _ hs hturn => ?_) (by simp [not_has_nil]) h
  rw [subtractAll_spec hturn, hs, has_append, has_singleton]
  tauto

theorem orRefused_eq_pure {α : Type} {x : Checked α} {result : Option α} (h : orRefused x = pure result) :
    ∀ a, result = some a → x = pure a := by
  rintro a rfl
  unfold orRefused at h
  match hx : ExceptT.run x with
  | none =>
    rw [hx] at h
    exact nomatch h
  | some (.error ()) =>
    rw [hx] at h
    exact nomatch pure_injective h
  | some (.ok b) =>
    rw [hx] at h
    obtain rfl := Option.some.inj (pure_injective h)
    exact hx

theorem containsFrom_spec {pending : List IndexBox} (h : containsFrom set pending = pure true)
    (hindex : IndexUnion.Has pending index) : IndexUnion.Has set index := by
  induction set generalizing pending with
  | nil =>
    obtain ⟨box, hbox, hindex⟩ := hindex
    have hall := pure_injective h
    rw [List.all_eq_true] at hall
    exact absurd hindex (not_boxHas_of_isEmpty (hall box hbox))
  | cons part rest ih =>
    obtain ⟨result, hresult, h⟩ := bind_eq_pure h
    cases result with
    | none => exact nomatch pure_injective h
    | some next =>
      have hnext : IndexUnion.Has next index ↔ IndexUnion.Has pending index ∧ ¬ BoxHas part index :=
        subtractAll_spec (orRefused_eq_pure hresult next rfl)
      by_cases hpart : BoxHas part index
      · exact ⟨part, by simp, hpart⟩
      · have hhas := hnext.2 ⟨hindex, hpart⟩
        simp only at h
        split at h
        · next hnil =>
          rw [hnil] at hhas
          exact absurd hhas not_has_nil
        · obtain ⟨box, hbox, hin⟩ := ih h hhas
          exact ⟨box, by simp [hbox], hin⟩

theorem mapM_forall₂_pure {α β : Type} {f : α → Checked β} {l : List α} {bs : List β} (h : l.mapM f = pure bs) :
    List.Forall₂ (fun a b => f a = pure b) l bs := by
  induction l generalizing bs with
  | nil =>
    obtain rfl := pure_injective h
    exact .nil
  | cons a l ih =>
    rw [List.mapM_cons] at h
    obtain ⟨b, hb, h⟩ := bind_eq_pure h
    obtain ⟨rest, hrest, h⟩ := bind_eq_pure h
    obtain rfl := pure_injective h
    exact .cons hb (ih hrest)

theorem has_of {boxes : List IndexBox} : IndexUnion.Has (IndexUnion.of boxes) index ↔ IndexUnion.Has boxes index :=
  has_filter

theorem meet_spec {result : IndexUnion} (h : meet set query = pure result) :
    IndexUnion.Has result index ↔ IndexUnion.Has set index ∧ IndexUnion.Has query index := by
  obtain ⟨parts, hparts, h⟩ := bind_eq_pure h
  obtain rfl := pure_injective h
  have hall := mapM_forall₂_pure hparts
  rw [has_of]
  constructor
  · rintro ⟨part, hpart, hindex⟩
    obtain ⟨⟨lhs, rhs⟩, hpair, hrun⟩ := forall₂_mem_left hall.flip hpart
    obtain ⟨lhs', hlhs, hpair⟩ := List.mem_flatMap.1 hpair
    obtain ⟨rhs', hrhs, heq⟩ := List.mem_map.1 hpair
    obtain ⟨rfl, rfl⟩ := Prod.mk.inj heq
    have := (boxIntersect_spec hrun).1 hindex
    exact ⟨⟨lhs', hlhs, this.1⟩, rhs', hrhs, this.2⟩
  · rintro ⟨⟨lhs, hlhs, hl⟩, rhs, hrhs, hr⟩
    have hpair : (lhs, rhs) ∈ set.flatMap fun lhs => query.map (lhs, ·) :=
      List.mem_flatMap.2 ⟨lhs, hlhs, List.mem_map_of_mem hrhs⟩
    obtain ⟨part, hpart, hrun⟩ := forall₂_mem_left hall hpair
    exact ⟨part, hpart, (boxIntersect_spec hrun).2 ⟨hl, hr⟩⟩

def evenColumns : IndexBox := [⟨1, 1, 2, Int.one_pos⟩, ⟨2, 2, 2, by decide⟩]
def oddColumns : IndexBox := [⟨1, 1, 2, Int.one_pos⟩, ⟨1, 2, 2, by decide⟩]

def allColumns : IndexBox := [⟨1, 1, 2, Int.one_pos⟩, ⟨1, 1, 4, Int.one_pos⟩]

end Checked

end Rumoca.Core
