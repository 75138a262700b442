import Rumoca.Lib.SignedForest
import Rumoca.Structural.Equalities
/-!
# The signed classes hold the closure of their edges

`union` adds an edge to the closure and says whether the closure changed. After
the candidates have been offered, the anchor that a class reports is its best
candidate. What `anchorOf` and `valueAnchorOf` answer is therefore settled by the closure
and the set of candidates.
-/

namespace Rumoca.DaeTransform

open Rumoca.Dae Rumoca.Lib

theorem getD_set {α : Type} {l : List α} {i : Nat} (hi : i < l.length) (v d : α) :
    (fun x => (l.set i v).getD x d) = Function.update (fun x => l.getD x d) i v := by
  funext x
  rw [List.getD_eq_getElem?_getD, List.getElem?_set]
  by_cases hx : i = x
  · subst hx
    rw [if_pos rfl, if_pos hi, Function.update_self, Option.getD_some]
  · rw [if_neg hx, Function.update_of_ne (Ne.symm hx), List.getD_eq_getElem?_getD]

namespace SignedClasses

variable {n : Nat} {es : List (Nat × Nat × Bool)} {c : SignedClasses}

/-- The classes hold the closure of the edges among `n` variables. -/
structure Represents (n : Nat) (es : List (Nat × Nat × Bool)) (c : SignedClasses) : Prop where
  parent_length : c.parent.length = n
  parity_length : c.parity.length = n
  anchor_length : c.anchor.length = n
  anchorParity_length : c.anchorParity.length = n
  inconsistent_length : c.inconsistent.length = n
  classes : SignedForest n es (parentAt c.parent) c.parityAt c.inconsistentAt

theorem findFrom_eq (c : SignedClasses) (fuel current : Nat) (parity : Bool) :
    c.findFrom fuel current parity = (signStep (parentAt c.parent) c.parityAt)^[fuel] (current, parity) := by
  induction fuel generalizing current parity with
  | zero => rfl
  | succ fuel ih =>
    rw [findFrom, Function.iterate_succ_apply]
    by_cases hroot : parentAt c.parent current = current
    · have hstep : signStep (parentAt c.parent) c.parityAt (current, parity) = (current, parity) := by
        rw [signStep, if_pos hroot]
      rw [if_pos hroot, hstep, Function.iterate_fixed hstep]
    · rw [if_neg hroot, ih, signStep, if_neg hroot]

theorem Represents.find_eq (h : Represents n es c) (x : Nat) :
    c.find x = (rootOf n (parentAt c.parent) x, signOf n (parentAt c.parent) c.parityAt x) := by
  rw [find, findFrom_eq, h.parent_length, signStep_iterate, Bool.false_xor]
  rfl

theorem represents_new (n : Nat) : Represents n [] (new n) where
  parent_length := List.length_range
  parity_length := List.length_replicate
  anchor_length := List.length_replicate
  anchorParity_length := List.length_replicate
  inconsistent_length := List.length_replicate
  classes := by
    have hfalse : ∀ x, (List.replicate n false).getD x false = false := by
      intro x
      rw [List.getD_eq_getElem?_getD, List.getElem?_replicate]
      split <;> rfl
    have hparity : (new n).parityAt = fun _ => false := funext hfalse
    have hflags : (new n).inconsistentAt = fun _ => false := funext hfalse
    rw [hparity, hflags, show (new n).parent = List.range n from rfl, parentAt_range]
    exact SignedForest.start n

/-! ## Union -/

/-- How many roots and how many unflagged variables there are. -/
def room (n : Nat) (c : SignedClasses) : Nat :=
  (List.range n).countP (fun x => parentAt c.parent x == x) + (List.range n).countP fun x => !c.inconsistentAt x

theorem countP_update_lt {n r : Nat} {p q : Nat → Bool} (hr : r < n) (hpr : p r = true) (hqr : q r = false)
    (hq : ∀ x, q x = true → p x = true) : (List.range n).countP q < (List.range n).countP p := by
  have hsplit : (List.range n).countP p = (List.range n).countP q + (List.range n).countP (fun x => p x && !q x) := by
    induction List.range n with
    | nil => rfl
    | cons x xs ih =>
      simp only [List.countP_cons, ih]
      have hx := hq x
      cases hp : p x <;> cases hq' : q x <;> simp_all <;> omega
  have hpos : 0 < (List.range n).countP (fun x => p x && !q x) :=
    List.countP_pos_iff.2 ⟨r, List.mem_range.2 hr, by rw [hpr, hqr]; rfl⟩
  omega

/-- What one edge does to the classes: it is implied already, or it changes them. -/
structure Joins (n : Nat) (es : List (Nat × Nat × Bool)) (c : SignedClasses) (edge : Nat × Nat × Bool)
    (r : SignedClasses × Bool) : Prop where
  represents : Represents n (es ++ [edge]) r.1
  changed_iff : r.2 = true ↔ ¬ Signed es edge.1 edge.2.1 edge.2.2
  room_lt : r.2 = true → room n r.1 < room n c
  unchanged : r.2 = false → r.1 = c

theorem Represents.joins_signed (h : Represents n es c) {left right : Nat} {opposite : Bool}
    (hp : Signed es left right opposite) : Joins n es c (left, right, opposite) (c, false) where
  represents := { h with classes := h.classes.append_signed hp }
  changed_iff := by simp [hp]
  room_lt := by simp
  unchanged _ := rfl

theorem Represents.joins_flag (h : Represents n es c) {left right root : Nat} {opposite : Bool} (hl : left < n)
    (hleft : rootOf n (parentAt c.parent) left = root) (hright : rootOf n (parentAt c.parent) right = root)
    (hne : opposite ≠ (signOf n (parentAt c.parent) c.parityAt left ^^ signOf n (parentAt c.parent) c.parityAt right))
    (hflag : c.inconsistentAt root = false) :
    Joins n es c (left, right, opposite) ({ c with inconsistent := c.inconsistent.set root true }, true) := by
  obtain ⟨height, hforest⟩ := h.classes.forest
  have hroot : root < n := hleft ▸ hforest.rootOf_lt hl
  have hset : SignedClasses.inconsistentAt { c with inconsistent := c.inconsistent.set root true } =
      Function.update c.inconsistentAt root true := getD_set (by rw [h.inconsistent_length]; exact hroot) true false
  refine ⟨{ h with inconsistent_length := (List.length_set ..).trans h.inconsistent_length, classes := ?_ }, ?_, ?_, ?_⟩
  · rw [hset, ← hleft]
    exact h.classes.append_flag (hleft.trans hright.symm) hne
  · exact iff_of_true rfl fun hp => hne ((h.classes.signed hp).2 (by rw [hleft]; exact hflag))
  · intro _
    refine Nat.add_lt_add_left (countP_update_lt hroot ?_ ?_ fun x hx => ?_) _
    · rw [hflag]
      rfl
    · rw [hset, Function.update_self]
      rfl
    · rw [hset] at hx
      by_cases he : x = root
      · rw [he, Function.update_self] at hx
        cases hx
      · rwa [Function.update_of_ne he] at hx
  · intro he
    cases he

theorem Represents.joins_link (h : Represents n es c) {left right keep merged : Nat} {opposite : Bool} (rank : List Nat)
    (hl : left < n) (hr : right < n)
    (hroots : (rootOf n (parentAt c.parent) left = keep ∧ rootOf n (parentAt c.parent) right = merged) ∨
      (rootOf n (parentAt c.parent) left = merged ∧ rootOf n (parentAt c.parent) right = keep)) (hne : keep ≠ merged) :
    Joins n es c (left, right, opposite)
      ({ c with
          parent := c.parent.set merged keep
          parity := c.parity.set merged ((signOf n (parentAt c.parent) c.parityAt left ^^
            signOf n (parentAt c.parent) c.parityAt right) ^^ opposite)
          inconsistent := c.inconsistent.set keep (c.inconsistentAt keep || c.inconsistentAt merged)
          rank := rank }, true) := by
  obtain ⟨height, hforest⟩ := h.classes.forest
  have hroot : ∀ x, rootOf n (parentAt c.parent) left = x ∨ rootOf n (parentAt c.parent) right = x →
      x < n ∧ parentAt c.parent x = x := by
    rintro x (rfl | rfl)
    · exact ⟨hforest.rootOf_lt hl, hforest.parent_rootOf left⟩
    · exact ⟨hforest.rootOf_lt hr, hforest.parent_rootOf right⟩
  have hkeep := hroot keep (hroots.imp (·.1) (·.2))
  have hmerged := hroot merged (hroots.symm.imp (·.1) (·.2))
  have hparent : parentAt (c.parent.set merged keep) = Function.update (parentAt c.parent) merged keep :=
    parentAt_set (by rw [h.parent_length]; exact hmerged.1) keep
  refine ⟨⟨(List.length_set ..).trans h.parent_length, (List.length_set ..).trans h.parity_length, h.anchor_length,
    h.anchorParity_length, (List.length_set ..).trans h.inconsistent_length, ?_⟩, ?_, ?_, ?_⟩
  · have hclasses := h.classes.append_link (s := opposite) hroots hl hr hne
    rw [← hparent] at hclasses
    convert hclasses using 1
    · exact getD_set (by rw [h.parity_length]; exact hmerged.1) _ false
    · exact getD_set (by rw [h.inconsistent_length]; exact hkeep.1) _ false
  · refine iff_of_true rfl fun hp => hne ?_
    have heq := (h.classes.signed hp).1
    rcases hroots with ⟨hk, hm⟩ | ⟨hm, hk⟩
    · rw [← hk, ← hm, heq]
    · rw [← hk, ← hm, heq]
  · intro _
    refine Nat.add_lt_add_of_lt_of_le (countP_update_lt hmerged.1 ?_ ?_ fun x hx => ?_) (List.countP_mono_left fun x _ hx => ?_)
    · rw [hmerged.2]
      exact beq_self_eq_true merged
    · rw [hparent, Function.update_self]
      exact beq_false_of_ne hne
    · rw [hparent] at hx
      by_cases he : x = merged
      · rw [he, Function.update_self] at hx
        exact absurd (beq_iff_eq.1 hx) hne
      · rwa [Function.update_of_ne he] at hx
    · have hset : SignedClasses.inconsistentAt
          { c with
            parent := c.parent.set merged keep
            parity := c.parity.set merged ((signOf n (parentAt c.parent) c.parityAt left ^^
              signOf n (parentAt c.parent) c.parityAt right) ^^ opposite)
            inconsistent := c.inconsistent.set keep (c.inconsistentAt keep || c.inconsistentAt merged)
            rank := rank } =
          Function.update c.inconsistentAt keep (c.inconsistentAt keep || c.inconsistentAt merged) :=
        getD_set (by rw [h.inconsistent_length]; exact hkeep.1) _ false
      rw [hset] at hx
      by_cases he : x = keep
      · rw [he, Function.update_self] at hx
        rw [he]
        simp only [Bool.not_or, Bool.and_eq_true] at hx
        exact hx.1
      · rwa [Function.update_of_ne he] at hx
  · intro he
    cases he

/-- `union` adds its edge to the closure, and says whether that changed it. -/
theorem Represents.union (h : Represents n es c) {left right : Nat} (hl : left < n) (hr : right < n) (opposite : Bool) :
    Joins n es c (left, right, opposite) (c.union left right opposite) := by
  unfold SignedClasses.union
  rw [h.find_eq, h.find_eq]
  simp only
  by_cases hroots : rootOf n (parentAt c.parent) left = rootOf n (parentAt c.parent) right
  · rw [if_pos hroots]
    have hin := h.classes.signed_of_root hroots
    split
    · next htest =>
      simp only [Bool.and_eq_true, Bool.not_eq_true'] at htest
      refine h.joins_flag hl rfl hroots.symm (fun he => ?_) htest.2
      rw [← he, Bool.xor_self] at htest
      cases htest.1
    · next htest =>
      refine h.joins_signed ?_
      rw [Bool.and_eq_true, not_and, Bool.not_eq_true', Bool.not_eq_false] at htest
      by_cases he : opposite = (signOf n (parentAt c.parent) c.parityAt left ^^ signOf n (parentAt c.parent) c.parityAt right)
      · exact he ▸ hin
      · -- a contradictory class relates its members by both signs
        have hloop := (h.classes.inconsistent_iff left).1 (htest (by
          revert he
          cases opposite <;>
            cases (signOf n (parentAt c.parent) c.parityAt left ^^ signOf n (parentAt c.parent) c.parityAt right) <;> simp))
        have hpath := hloop.trans hin
        have hne : (true ^^ (signOf n (parentAt c.parent) c.parityAt left ^^ signOf n (parentAt c.parent) c.parityAt right)) =
            opposite := by
          revert he
          cases opposite <;>
            cases (signOf n (parentAt c.parent) c.parityAt left ^^ signOf n (parentAt c.parent) c.parityAt right) <;> simp
        exact hne ▸ hpath
  · rw [if_neg hroots]
    split_ifs
    all_goals first
      | exact h.joins_link _ hl hr (.inl ⟨rfl, rfl⟩) hroots
      | exact h.joins_link _ hl hr (.inr ⟨rfl, rfl⟩) (Ne.symm hroots)

/-! ## Anchors -/

variable {view : DaeView} {candidates : List (Nat × EqualityAnchor)}

/-- Each root holds the best candidate of its class, with the sign of the member that supplied it. -/
def Anchored (view : DaeView) (n : Nat) (candidates : List (Nat × EqualityAnchor)) (c : SignedClasses) : Prop :=
  ∀ r < n, match c.anchorAt r with
    | none => ∀ p ∈ candidates, rootOf n (parentAt c.parent) p.1 ≠ r
    | some a => ∃ w, (w, a) ∈ candidates ∧ rootOf n (parentAt c.parent) w = r ∧
        c.anchorParityAt r = signOf n (parentAt c.parent) c.parityAt w ∧
        ∀ p ∈ candidates, rootOf n (parentAt c.parent) p.1 = r → anchorKey view p.2 ≤ anchorKey view a

theorem Represents.clearAnchors (h : Represents n es c) :
    Represents n es c.clearAnchors ∧ Anchored view n [] c.clearAnchors := by
  refine ⟨{ h with
    anchor_length := List.length_replicate.trans h.anchor_length
    anchorParity_length := List.length_replicate.trans h.anchorParity_length }, fun r hr => ?_⟩
  have hnone : c.clearAnchors.anchorAt r = none := by
    rw [anchorAt, SignedClasses.clearAnchors, List.getD_eq_getElem?_getD, List.getElem?_replicate]
    split <;> rfl
  rw [hnone]
  exact fun p hp => by cases hp

theorem Represents.replaceAnchor (h : Represents n es c) (ha : Anchored view n candidates c) {x : Nat} (hx : x < n)
    {candidate : EqualityAnchor} {c' : SignedClasses}
    (hc' : c' = { c with
      anchor := c.anchor.set (rootOf n (parentAt c.parent) x) (some candidate)
      anchorParity := c.anchorParity.set (rootOf n (parentAt c.parent) x) (signOf n (parentAt c.parent) c.parityAt x) })
    (hbetter : ∀ current, c.anchorAt (rootOf n (parentAt c.parent) x) = some current →
      anchorKey view current < anchorKey view candidate) :
    Represents n es c' ∧ Anchored view n (candidates ++ [(x, candidate)]) c' := by
  obtain ⟨height, hforest⟩ := h.classes.forest
  have hroot : rootOf n (parentAt c.parent) x < n := hforest.rootOf_lt hx
  have hanchor : c'.anchorAt = Function.update c.anchorAt (rootOf n (parentAt c.parent) x) (some candidate) :=
    hc' ▸ getD_set (by rw [h.anchor_length]; exact hroot) (some candidate) none
  have hparity : c'.anchorParityAt = Function.update c.anchorParityAt (rootOf n (parentAt c.parent) x)
      (signOf n (parentAt c.parent) c.parityAt x) :=
    hc' ▸ getD_set (by rw [h.anchorParity_length]; exact hroot) _ false
  have hparent : c'.parent = c.parent := by rw [hc']
  have hsigns : c'.parityAt = c.parityAt := by
    subst hc'
    rfl
  refine ⟨hc' ▸ { h with
    anchor_length := (List.length_set ..).trans h.anchor_length
    anchorParity_length := (List.length_set ..).trans h.anchorParity_length }, fun r hr => ?_⟩
  have hold := ha r hr
  rw [hanchor, hparity, hparent, hsigns]
  by_cases hrx : r = rootOf n (parentAt c.parent) x
  · subst hrx
    rw [Function.update_self, Function.update_self]
    refine ⟨x, by simp, rfl, rfl, fun p hp hpr => ?_⟩
    rcases List.mem_append.1 hp with hp | hp
    · cases hat : c.anchorAt (rootOf n (parentAt c.parent) x) with
      | none =>
        rw [hat] at hold
        exact absurd hpr (hold p hp)
      | some current =>
        rw [hat] at hold
        obtain ⟨w, -, -, -, hbest⟩ := hold
        exact (hbest p hp hpr).trans (hbetter current hat).le
    · rw [List.mem_singleton.1 hp]
  · rw [Function.update_of_ne hrx, Function.update_of_ne hrx]
    cases hat : c.anchorAt r with
    | none =>
      rw [hat] at hold
      intro p hp
      rcases List.mem_append.1 hp with hp | hp
      · exact hold p hp
      · rw [List.mem_singleton.1 hp]
        exact Ne.symm hrx
    | some a =>
      rw [hat] at hold
      obtain ⟨w, hw, hwr, hsign, hbest⟩ := hold
      refine ⟨w, List.mem_append_left _ hw, hwr, hsign, fun p hp hpr => ?_⟩
      rcases List.mem_append.1 hp with hp | hp
      · exact hbest p hp hpr
      · rw [List.mem_singleton.1 hp] at hpr
        exact absurd hpr.symm hrx

theorem Anchored.keep (ha : Anchored view n candidates c) {x : Nat} {candidate current : EqualityAnchor}
    (hat : c.anchorAt (rootOf n (parentAt c.parent) x) = some current)
    (hle : anchorKey view candidate ≤ anchorKey view current) : Anchored view n (candidates ++ [(x, candidate)]) c := by
  intro r hr
  have hold := ha r hr
  cases hatr : c.anchorAt r with
  | none =>
    rw [hatr] at hold
    intro p hp
    rcases List.mem_append.1 hp with hp | hp
    · exact hold p hp
    · rw [List.mem_singleton.1 hp]
      rintro rfl
      cases hat.symm.trans hatr
  | some a =>
    rw [hatr] at hold
    obtain ⟨w, hw, hwr, hsign, hbest⟩ := hold
    refine ⟨w, List.mem_append_left _ hw, hwr, hsign, fun p hp hpr => ?_⟩
    rcases List.mem_append.1 hp with hp | hp
    · exact hbest p hp hpr
    · rw [List.mem_singleton.1 hp] at hpr ⊢
      subst hpr
      cases hat.symm.trans hatr
      exact hle

theorem Represents.offerAnchor (h : Represents n es c) (ha : Anchored view n candidates c) {x : Nat} (hx : x < n)
    (candidate : EqualityAnchor) : Represents n es (c.offerAnchor view x candidate) ∧
      Anchored view n (candidates ++ [(x, candidate)]) (c.offerAnchor view x candidate) := by
  unfold SignedClasses.offerAnchor
  rw [h.find_eq]
  cases hat : c.anchorAt (rootOf n (parentAt c.parent) x) with
  | none => exact h.replaceAnchor ha hx (by simp [hat]) fun current hc => by rw [hat] at hc; cases hc
  | some current =>
    by_cases hlt : anchorKey view current < anchorKey view candidate
    · refine h.replaceAnchor ha hx (by simp [hat, hlt]) fun current' hc => ?_
      cases hat.symm.trans hc
      exact hlt
    · simp only [hat, hlt, decide_false, Bool.false_eq_true, if_false]
      exact ⟨h, ha.keep hat (not_lt.1 hlt)⟩

theorem Represents.offerAnchors (h : Represents n es c) (hc : ∀ p ∈ candidates, p.1 < n) :
    Represents n es (candidates.foldl (fun c p => c.offerAnchor view p.1 p.2) c.clearAnchors) ∧
      Anchored view n candidates (candidates.foldl (fun c p => c.offerAnchor view p.1 p.2) c.clearAnchors) :=
  foldl_inv (fun pre c => Represents n es c ∧ Anchored view n pre c)
    (fun pre p post s hl hs => hs.1.offerAnchor hs.2 (hc p (by simp [hl])) p.2) h.clearAnchors

/-! ## What the classes answer -/

/-- The best candidate of the variable's class with the sign between them, and
nothing where the class contradicts itself or has no candidate. -/
def IsValueAnchor (view : DaeView) (es : List (Nat × Nat × Bool)) (candidates : List (Nat × EqualityAnchor)) (x : Nat) :
    Option (EqualityAnchor × EqualitySign) → Prop
  | none => Signed es x x true ∨ ∀ p ∈ candidates, ∀ s, ¬ Signed es x p.1 s
  | some (a, sign) => ¬ Signed es x x true ∧ ∃ w s, (w, a) ∈ candidates ∧ Signed es x w s ∧ sign = .of s ∧
      ∀ p ∈ candidates, ∀ s', Signed es x p.1 s' → anchorKey view p.2 ≤ anchorKey view a

/-- Candidate states stand for themselves, and no two candidates compete by the same key. -/
structure CandidatesDistinct (view : DaeView) (n : Nat) (candidates : List (Nat × EqualityAnchor)) : Prop where
  lt : ∀ p ∈ candidates, p.1 < n
  state : ∀ w s, (w, EqualityAnchor.state s) ∈ candidates → s = w
  key : ∀ p ∈ candidates, ∀ q ∈ candidates, anchorKey view p.2 = anchorKey view q.2 → p = q

theorem CandidatesDistinct.of_mem_iff {candidates' : List (Nat × EqualityAnchor)}
    (hd : CandidatesDistinct view n candidates) (hc : ∀ p, p ∈ candidates ↔ p ∈ candidates') :
    CandidatesDistinct view n candidates' where
  lt p hp := hd.lt p ((hc p).2 hp)
  state w s hw := hd.state w s ((hc _).2 hw)
  key p hp q hq := hd.key p ((hc p).2 hp) q ((hc q).2 hq)

theorem Represents.valueAnchorOf (h : Represents n es c) (ha : Anchored view n candidates c)
    (hd : CandidatesDistinct view n candidates) (x : Nat) : IsValueAnchor view es candidates x (c.valueAnchorOf x) := by
  obtain ⟨height, hforest⟩ := h.classes.forest
  have hold : match c.anchorAt (rootOf n (parentAt c.parent) x) with
      | none => ∀ p ∈ candidates, rootOf n (parentAt c.parent) p.1 ≠ rootOf n (parentAt c.parent) x
      | some a => ∃ w, (w, a) ∈ candidates ∧ rootOf n (parentAt c.parent) w = rootOf n (parentAt c.parent) x ∧
          c.anchorParityAt (rootOf n (parentAt c.parent) x) = signOf n (parentAt c.parent) c.parityAt w ∧
          ∀ p ∈ candidates, rootOf n (parentAt c.parent) p.1 = rootOf n (parentAt c.parent) x →
            anchorKey view p.2 ≤ anchorKey view a := by
    rcases Nat.lt_or_ge x n with hx | hx
    · exact ha _ (hforest.rootOf_lt hx)
    · -- an index past the variables is alone
      have hroot : rootOf n (parentAt c.parent) x = x := Forest.rootOf_of_root (hforest.outside x hx)
      have hnone : c.anchorAt x = none := by
        rw [anchorAt, List.getD_eq_getElem?_getD, List.getElem?_eq_none (h.anchor_length.le.trans hx), Option.getD_none]
      rw [hroot, hnone]
      exact fun p hp he => absurd (hforest.rootOf_lt (hd.lt p hp)) (by omega)
  unfold SignedClasses.valueAnchorOf
  rw [h.find_eq]
  simp only
  split
  · next hflag => exact .inl ((h.classes.inconsistent_iff x).1 hflag)
  · next hflag =>
    have hcons : ¬ Signed es x x true := fun hp => hflag ((h.classes.inconsistent_iff x).2 hp)
    cases hat : c.anchorAt (rootOf n (parentAt c.parent) x) with
    | none =>
      rw [hat] at hold
      exact .inr fun p hp s hs => hold p hp (h.classes.signed hs).1.symm
    | some a =>
      rw [hat] at hold
      obtain ⟨w, hw, hwr, hsign, hbest⟩ := hold
      have hpath := h.classes.signed_of_root hwr.symm
      have hbest' : ∀ p ∈ candidates, ∀ s', Signed es x p.1 s' → anchorKey view p.2 ≤ anchorKey view a :=
        fun p hp s' hs' => hbest p hp (h.classes.signed hs').1.symm
      cases a with
      | invariant value zero ordinal => exact ⟨hcons, w, _, hw, hpath, by rw [hsign], hbest'⟩
      | state state =>
        obtain rfl := hd.state w state hw
        exact ⟨hcons, state, _, hw, hpath, by rw [h.find_eq], hbest'⟩

theorem isValueAnchor_unique {es' : List (Nat × Nat × Bool)} {candidates' : List (Nat × EqualityAnchor)}
    (hes : SameSigns es es') (hc : ∀ p, p ∈ candidates ↔ p ∈ candidates') (hd : CandidatesDistinct view n candidates)
    {x : Nat} {o o' : Option (EqualityAnchor × EqualitySign)} (h : IsValueAnchor view es candidates x o)
    (h' : IsValueAnchor view es' candidates' x o') : o = o' := by
  cases o with
  | none =>
    cases o' with
    | none => rfl
    | some r' =>
      obtain ⟨hcons, w, s, hw, hpath, -⟩ := h'
      rcases h with h | h
      · exact absurd ((hes _ _ _).1 h) hcons
      · exact absurd ((hes _ _ _).2 hpath) (h (w, r'.1) ((hc _).2 hw) s)
  | some r =>
    obtain ⟨hcons, w, s, hw, hpath, hsign, hbest⟩ := h
    cases o' with
    | none =>
      rcases h' with h' | h'
      · exact absurd ((hes _ _ _).2 h') hcons
      · exact absurd ((hes _ _ _).1 hpath) (h' (w, r.1) ((hc _).1 hw) s)
    | some r' =>
      obtain ⟨-, w', s', hw', hpath', hsign', hbest'⟩ := h'
      have hkey : anchorKey view r.1 = anchorKey view r'.1 :=
        le_antisymm (hbest' (w, r.1) ((hc _).1 hw) s ((hes _ _ _).1 hpath))
          (hbest (w', r'.1) ((hc _).2 hw') s' ((hes _ _ _).2 hpath'))
      have hsame := hd.key (w, r.1) hw (w', r'.1) ((hc _).2 hw') hkey
      obtain ⟨rfl, hanchor⟩ := Prod.mk.inj hsame
      have hs : s = s' := by
        by_contra hne
        have hloop := hpath.trans ((hes _ _ _).2 hpath').symm
        rw [show (s ^^ s') = true by revert hne; cases s <;> cases s' <;> simp] at hloop
        exact hcons hloop
      exact congrArg some (Prod.ext hanchor (by rw [hsign, hsign', hs]))

theorem anchorOf_eq (c : SignedClasses) (x : Nat) : c.anchorOf x = (c.valueAnchorOf x).map fun r =>
    match r.1 with
    | .invariant _ _ _ => (r.1, .same)
    | .state _ => r := by
  unfold SignedClasses.anchorOf SignedClasses.valueAnchorOf
  simp only
  split
  · rfl
  · split <;> rfl

end SignedClasses

end Rumoca.DaeTransform
