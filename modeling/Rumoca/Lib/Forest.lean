import Mathlib.Data.Finset.Card
import Mathlib.Logic.Function.Iterate
import Mathlib.Logic.Relation
/-!
# Parent forests

The nodes below `n` with a parent pointer each, where every step to another
node raises a height. The root of a node is the end of its path. Pointing a
node at one above it in its tree keeps every root; pointing a root at another
joins two trees. These are the facts behind every union-find.
-/

namespace Rumoca.Lib

/-- Parent pointers below `n` that raise `height`. A node from `n` on is its own parent. -/
structure Forest (n : Nat) (height parent : Nat → Nat) : Prop where
  outside : ∀ x, n ≤ x → parent x = x
  inside : ∀ x < n, parent x < n
  up : ∀ x, parent x ≠ x → height x < height (parent x)

/-- The end of the path from `x`, which has fewer than `n` steps. -/
def rootOf (n : Nat) (parent : Nat → Nat) (x : Nat) : Nat := parent^[n] x

namespace Forest

variable {n : Nat} {height parent : Nat → Nat}

theorem refl (n : Nat) (height : Nat → Nat) : Forest n height id :=
  ⟨fun _ _ => rfl, fun _ h => h, fun _ h => absurd rfl h⟩

theorem iterate_lt (h : Forest n height parent) (k : Nat) {x : Nat} (hx : x < n) : parent^[k] x < n := by
  induction k with
  | zero => exact hx
  | succ k ih =>
    rw [Function.iterate_succ_apply']
    exact h.inside _ ih

theorem iterate_of_root {x : Nat} (hx : parent x = x) (k : Nat) : parent^[k] x = x :=
  Function.iterate_fixed hx k

theorem height_lt_iterate (h : Forest n height parent) {x k : Nat}
    (hk : ∀ i < k, parent (parent^[i] x) ≠ parent^[i] x) {i j : Nat} (hij : i < j) (hj : j ≤ k) :
    height (parent^[i] x) < height (parent^[j] x) := by
  induction j with
  | zero => omega
  | succ j ih =>
    have hstep : height (parent^[j] x) < height (parent^[j + 1] x) := by
      rw [Function.iterate_succ_apply']
      exact h.up _ (hk j (by omega))
    rcases Nat.lt_or_ge i j with hlt | hge
    · exact (ih hlt (by omega)).trans hstep
    · obtain rfl : i = j := by omega
      exact hstep

theorem path_lt (h : Forest n height parent) {x k : Nat} (hx : x < n)
    (hk : ∀ i < k, parent (parent^[i] x) ≠ parent^[i] x) : k < n := by
  have hinj : Set.InjOn (fun i => parent^[i] x) (Finset.range (k + 1)) := by
    intro i hi j hj hij
    have hi : i < k + 1 := by simpa using hi
    have hj : j < k + 1 := by simpa using hj
    rcases Nat.lt_trichotomy i j with hlt | heq | hgt
    · exact absurd (congrArg height hij) (h.height_lt_iterate hk hlt (by omega)).ne
    · exact heq
    · exact absurd (congrArg height hij).symm (h.height_lt_iterate hk hgt (by omega)).ne
  have hcard := Finset.card_le_card_of_injOn (t := Finset.range n) (fun i => parent^[i] x)
    (fun i _ => by simpa using h.iterate_lt i hx) hinj
  simp only [Finset.card_range] at hcard
  omega

theorem parent_rootOf (h : Forest n height parent) (x : Nat) : parent (rootOf n parent x) = rootOf n parent x := by
  rcases Nat.lt_or_ge x n with hx | hx
  · by_contra hne
    have hpath : ∀ i < n, parent (parent^[i] x) ≠ parent^[i] x := by
      intro i hi hroot
      have hend : rootOf n parent x = parent^[i] x := by
        obtain ⟨d, rfl⟩ := Nat.exists_eq_add_of_le hi.le
        rw [rootOf, Nat.add_comm, Function.iterate_add_apply, iterate_of_root hroot]
      exact hne (by rw [hend, hroot])
    exact absurd (h.path_lt hx hpath) (lt_irrefl n)
  · rw [rootOf, iterate_of_root (h.outside x hx), h.outside x hx]

theorem rootOf_of_root {x : Nat} (hx : parent x = x) : rootOf n parent x = x := iterate_of_root hx n

theorem rootOf_parent (h : Forest n height parent) (x : Nat) : rootOf n parent (parent x) = rootOf n parent x := by
  rw [rootOf, ← Function.iterate_succ_apply, Function.iterate_succ_apply']
  exact h.parent_rootOf x

theorem rootOf_rootOf (h : Forest n height parent) (x : Nat) :
    rootOf n parent (rootOf n parent x) = rootOf n parent x :=
  rootOf_of_root (h.parent_rootOf x)

theorem rootOf_lt (h : Forest n height parent) {x : Nat} (hx : x < n) : rootOf n parent x < n := h.iterate_lt n hx

theorem rootOf_iterate (h : Forest n height parent) (k x : Nat) : rootOf n parent (parent^[k] x) = rootOf n parent x := by
  induction k with
  | zero => rfl
  | succ k ih => rw [Function.iterate_succ_apply', h.rootOf_parent, ih]

theorem climb_induct (h : Forest n height parent) {P : Nat → Prop} (root : ∀ x, parent x = x → P x)
    (step : ∀ x, parent x ≠ x → P (parent x) → P x) (x : Nat) : P x := by
  have key : ∀ k x, parent (parent^[k] x) = parent^[k] x → P x := by
    intro k
    induction k with
    | zero => exact fun x hx => root x hx
    | succ k ih =>
      intro x hx
      by_cases hroot : parent x = x
      · exact root x hroot
      · exact step x hroot (ih (parent x) hx)
  exact key n x (h.parent_rootOf x)

theorem height_le_rootOf (h : Forest n height parent) (x : Nat) : height x ≤ height (rootOf n parent x) := by
  refine h.climb_induct (P := fun x => height x ≤ height (rootOf n parent x)) (fun x hx => ?_) (fun x hx ih => ?_) x
  · rw [rootOf_of_root hx]
  · rw [h.rootOf_parent] at ih
    exact (h.up x hx).le.trans ih

/-! ## Changing pointers -/

theorem repoint (h : Forest n height parent) {x y : Nat} (hx : x < n) (hy : y < n) (hxy : height x < height y)
    (hroot : rootOf n parent y = rootOf n parent x) :
    Forest n height (Function.update parent x y) ∧ ∀ z, rootOf n (Function.update parent x y) z = rootOf n parent z := by
  have hne : x ≠ y := fun he => absurd (congrArg height he) hxy.ne
  have hforest : Forest n height (Function.update parent x y) := by
    refine ⟨fun z hz => ?_, fun z hz => ?_, fun z hz => ?_⟩
    · rw [Function.update_of_ne (by omega)]
      exact h.outside z hz
    · by_cases he : z = x
      · rw [he, Function.update_self]
        exact hy
      · rw [Function.update_of_ne he]
        exact h.inside z hz
    · by_cases he : z = x
      · rw [he, Function.update_self]
        exact hxy
      · rw [Function.update_of_ne he] at hz ⊢
        exact h.up z hz
  refine ⟨hforest, fun z => ?_⟩
  refine hforest.climb_induct (P := fun z => rootOf n (Function.update parent x y) z = rootOf n parent z)
    (fun z hz => ?_) (fun z hz ih => ?_) z
  · rw [rootOf_of_root hz]
    by_cases he : z = x
    · rw [he, Function.update_self] at hz
      exact absurd hz.symm hne
    · rw [Function.update_of_ne he] at hz
      rw [rootOf_of_root hz]
  · rw [← hforest.rootOf_parent, ih]
    by_cases he : z = x
    · rw [he, Function.update_self, hroot]
    · rw [Function.update_of_ne he, h.rootOf_parent]

/-- Pointing a root at another root, at heights that admit it, joins its tree to the other's. -/
theorem link (h : Forest n height parent) {height' : Nat → Nat} {a b : Nat} (ha : parent a = a) (hb : parent b = b)
    (hforest : Forest n height' (Function.update parent a b)) (hab : a ≠ b) (z : Nat) :
    rootOf n (Function.update parent a b) z = if rootOf n parent z = a then b else rootOf n parent z := by
  have hb' : Function.update parent a b b = b := by rw [Function.update_of_ne hab.symm, hb]
  refine h.climb_induct (P := fun z => rootOf n (Function.update parent a b) z =
    if rootOf n parent z = a then b else rootOf n parent z) (fun z hz => ?_) (fun z hz ih => ?_) z
  · rw [rootOf_of_root hz]
    by_cases he : z = a
    · rw [if_pos he, he, ← hforest.rootOf_parent, Function.update_self, rootOf_of_root hb']
    · rw [if_neg he]
      exact rootOf_of_root (by rw [Function.update_of_ne he, hz])
  · rw [h.rootOf_parent] at ih
    have he : z ≠ a := fun he => hz (he ▸ ha)
    rw [← hforest.rootOf_parent, Function.update_of_ne he, ih]

theorem link_forest (h : Forest n height parent) (height' : Nat → Nat) {a b : Nat} (ha : a < n) (hb : b < n)
    (hroot : parent b = b) (hheight : ∀ x, x ≠ b → height' x = height x) (hle : height b ≤ height' b)
    (hab : height a < height' b) (hne : a ≠ b) : Forest n height' (Function.update parent a b) := by
  refine ⟨fun z hz => ?_, fun z hz => ?_, fun z hz => ?_⟩
  · rw [Function.update_of_ne (by omega)]
    exact h.outside z hz
  · by_cases he : z = a
    · rw [he, Function.update_self]
      exact hb
    · rw [Function.update_of_ne he]
      exact h.inside z hz
  · by_cases he : z = a
    · rw [he, Function.update_self, hheight a hne]
      exact hab
    · rw [Function.update_of_ne he] at hz ⊢
      have hzb : z ≠ b := fun hzb => hz (hzb ▸ hroot)
      rw [hheight z hzb]
      by_cases hpb : parent z = b
      · exact (h.up z hz).trans_le (hpb ▸ hle)
      · rw [hheight _ hpb]
        exact h.up z hz

theorem grow (h : Forest n height parent) :
    Forest (n + 1) height parent ∧ ∀ x, rootOf (n + 1) parent x = rootOf n parent x := by
  refine ⟨⟨fun x hx => h.outside x (by omega), fun x hx => ?_, h.up⟩, fun x => ?_⟩
  · rcases Nat.lt_or_ge x n with hx | hx
    · exact (h.inside x hx).trans (Nat.lt_succ_self n)
    · rwa [h.outside x hx]
  · rw [rootOf, Function.iterate_succ_apply]
    exact h.rootOf_parent x

end Forest

theorem link_eq_iff {a b r t : Nat} :
    ((if r = a then b else r) = if t = a then b else t) ↔ r = t ∨ (r = a ∧ t = b) ∨ (r = b ∧ t = a) := by
  split_ifs <;> omega

/-! ## Parent lists -/

/-- The parent a list gives a node; outside the list a node is its own parent. -/
def parentAt (parents : List Nat) (x : Nat) : Nat := parents.getD x x

theorem parentAt_eq {parents : List Nat} {x y : Nat} (h : parents[x]? = some y) : parentAt parents x = y := by
  rw [parentAt, List.getD_eq_getElem?_getD, h, Option.getD_some]

theorem getElem?_parentAt {parents : List Nat} {x : Nat} (hx : x < parents.length) :
    parents[x]? = some (parentAt parents x) := by
  rw [parentAt, List.getD_eq_getElem?_getD, List.getElem?_eq_getElem hx, Option.getD_some]

theorem parentAt_outside {parents : List Nat} {x : Nat} (hx : parents.length ≤ x) : parentAt parents x = x := by
  rw [parentAt, List.getD_eq_getElem?_getD, List.getElem?_eq_none hx, Option.getD_none]

theorem parentAt_set {parents : List Nat} {x : Nat} (hx : x < parents.length) (y : Nat) :
    parentAt (parents.set x y) = Function.update (parentAt parents) x y := by
  funext z
  by_cases hz : z = x
  · subst hz
    rw [Function.update_self]
    exact parentAt_eq (List.getElem?_set_self hx)
  · rw [Function.update_of_ne hz, parentAt, parentAt, List.getD_eq_getElem?_getD, List.getD_eq_getElem?_getD,
      List.getElem?_set_ne (Ne.symm hz)]

theorem parentAt_append_self (parents : List Nat) : parentAt (parents ++ [parents.length]) = parentAt parents := by
  funext z
  rcases Nat.lt_trichotomy z parents.length with hz | hz | hz
  · apply parentAt_eq
    rw [List.getElem?_append_left hz, getElem?_parentAt hz]
  · subst hz
    rw [parentAt_outside le_rfl]
    apply parentAt_eq
    simp
  · rw [parentAt_outside hz.le, parentAt_outside]
    rw [List.length_append, List.length_singleton]
    exact hz

/-! ## Generated equivalences -/

section
variable {α : Type*} {R : α → α → Prop} {u v : α}

theorem eqvGen_join (x y : α) :
    Relation.EqvGen (fun a b => R a b ∨ (a = u ∧ b = v)) x y ↔
      Relation.EqvGen R x y ∨ (Relation.EqvGen R x u ∧ Relation.EqvGen R v y) ∨
        (Relation.EqvGen R x v ∧ Relation.EqvGen R u y) := by
  constructor
  · intro h
    induction h with
    | rel a b hab =>
      rcases hab with hab | ⟨rfl, rfl⟩
      · exact .inl (.rel _ _ hab)
      · exact .inr (.inl ⟨.refl _, .refl _⟩)
    | refl a => exact .inl (.refl a)
    | symm a b _ ih =>
      rcases ih with h | ⟨h₁, h₂⟩ | ⟨h₁, h₂⟩
      · exact .inl (h.symm)
      · exact .inr (.inr ⟨h₂.symm, h₁.symm⟩)
      · exact .inr (.inl ⟨h₂.symm, h₁.symm⟩)
    | trans a b c _ _ ih₁ ih₂ =>
      rcases ih₁ with h | ⟨h₁, h₂⟩ | ⟨h₁, h₂⟩ <;> rcases ih₂ with k | ⟨k₁, k₂⟩ | ⟨k₁, k₂⟩
      · exact .inl (h.trans _ _ _ k)
      · exact .inr (.inl ⟨h.trans _ _ _ k₁, k₂⟩)
      · exact .inr (.inr ⟨h.trans _ _ _ k₁, k₂⟩)
      · exact .inr (.inl ⟨h₁, h₂.trans _ _ _ k⟩)
      · exact .inr (.inl ⟨h₁, k₂⟩)
      · exact .inl (h₁.trans _ _ _ k₂)
      · exact .inr (.inr ⟨h₁, h₂.trans _ _ _ k⟩)
      · exact .inl (h₁.trans _ _ _ k₂)
      · exact .inr (.inr ⟨h₁, k₂⟩)
  · have hmono : ∀ a b, Relation.EqvGen R a b → Relation.EqvGen (fun a b => R a b ∨ (a = u ∧ b = v)) a b :=
      fun a b h => h.mono fun _ _ => .inl
    have huv : Relation.EqvGen (fun a b => R a b ∨ (a = u ∧ b = v)) u v := .rel _ _ (.inr ⟨rfl, rfl⟩)
    rintro (h | ⟨h₁, h₂⟩ | ⟨h₁, h₂⟩)
    · exact hmono _ _ h
    · exact (hmono _ _ h₁).trans _ _ _ (huv.trans _ _ _ (hmono _ _ h₂))
    · exact (hmono _ _ h₁).trans _ _ _ (huv.symm.trans _ _ _ (hmono _ _ h₂))

theorem eqvGen_congr_symm {S : α → α → Prop} (h : ∀ a b, (R a b ∨ R b a) ↔ (S a b ∨ S b a)) (x y : α) :
    Relation.EqvGen R x y ↔ Relation.EqvGen S x y := by
  have key : ∀ {R S : α → α → Prop}, (∀ a b, (R a b ∨ R b a) → (S a b ∨ S b a)) →
      ∀ x y, Relation.EqvGen R x y → Relation.EqvGen S x y := by
    intro R S h x y hxy
    induction hxy with
    | rel a b hab =>
      rcases h a b (.inl hab) with hs | hs
      · exact .rel _ _ hs
      · exact .symm _ _ (.rel _ _ hs)
    | refl a => exact .refl a
    | symm a b _ ih => exact ih.symm
    | trans a b c _ _ ih₁ ih₂ => exact ih₁.trans _ _ _ ih₂
  exact ⟨key (fun a b => (h a b).1) x y, key (fun a b => (h a b).2) x y⟩

theorem eqvGen_isolated (hu : ∀ a b, R a b → a ≠ u ∧ b ≠ u) {x : α} (h : Relation.EqvGen R x u) : x = u := by
  have key : ∀ a b, Relation.EqvGen R a b → (a = u ↔ b = u) := by
    intro a b hab
    induction hab with
    | rel a b hab => exact iff_of_false (hu a b hab).1 (hu a b hab).2
    | refl a => exact Iff.rfl
    | symm a b _ ih => exact ih.symm
    | trans a b c _ _ ih₁ ih₂ => exact ih₁.trans ih₂
  exact (key x u h).2 rfl

/-! ## Edge lists -/

variable {es fs : List (α × α)} {a b x y : α}

def Joined (es : List (α × α)) : α → α → Prop := Relation.EqvGen fun a b => (a, b) ∈ es

theorem Joined.refl (es : List (α × α)) (x : α) : Joined es x x := Relation.EqvGen.refl x

theorem Joined.symm (h : Joined es x y) : Joined es y x := Relation.EqvGen.symm _ _ h

theorem Joined.trans {z : α} (h : Joined es x y) (h' : Joined es y z) : Joined es x z := Relation.EqvGen.trans _ _ _ h h'

theorem Joined.of_mem (h : (x, y) ∈ es) : Joined es x y := .rel _ _ h

theorem Joined.mono (h : Joined es x y) (hsub : ∀ e ∈ es, e ∈ fs) : Joined fs x y :=
  Relation.EqvGen.mono (fun _ _ he => hsub _ he) _ _ h

theorem joined_nil : Joined ([] : List (α × α)) x y ↔ x = y :=
  ⟨fun h => eqvGen_isolated (fun _ _ he => nomatch he) h, fun h => h ▸ Joined.refl [] x⟩

theorem joined_append : Joined (es ++ [(a, b)]) x y ↔
    Joined es x y ∨ (Joined es x a ∧ Joined es b y) ∨ (Joined es x b ∧ Joined es a y) := by
  refine Iff.trans (eqvGen_congr_symm (fun c d => ?_) x y) (eqvGen_join x y)
  simp

theorem joined_append_of_joined (hab : Joined es a b) : Joined (es ++ [(a, b)]) x y ↔ Joined es x y := by
  rw [joined_append]
  constructor
  · rintro (h | ⟨h, h'⟩ | ⟨h, h'⟩)
    · exact h
    · exact h.trans (hab.trans h')
    · exact h.trans (hab.symm.trans h')
  · exact .inl

theorem Joined.closed (h : Joined es x y) {P : α → Prop} (hP : ∀ e ∈ es, P e.1 ↔ P e.2) : P x ↔ P y := by
  induction h with
  | rel a b hab => exact hP (a, b) hab
  | refl a => exact Iff.rfl
  | symm a b _ ih => exact ih.symm
  | trans a b c _ _ ih₁ ih₂ => exact ih₁.trans ih₂

/-- No edge on `P` joins nodes that the other edges join. -/
def AcyclicOn (P : α → Prop) (es : List (α × α)) : Prop :=
  ∀ (i : Nat) e, es[i]? = some e → P e.1 → ¬ Joined (es.eraseIdx i) e.1 e.2

/-- One more edge, when those on `P` join separate trees. -/
theorem AcyclicOn.append {P : α → Prop} (h : AcyclicOn P es) (hP : ∀ e ∈ es ++ [(a, b)], P e.1 ↔ P e.2)
    (hab : P a → ¬ Joined es a b) : AcyclicOn P (es ++ [(a, b)]) := by
  intro i e hi hPe hjoined
  rcases Nat.lt_or_ge i es.length with hlt | hge
  · rw [List.getElem?_append_left hlt] at hi
    rw [List.eraseIdx_append_of_lt_length hlt, joined_append] at hjoined
    have hmono : ∀ {x y}, Joined (es.eraseIdx i) x y → Joined es x y :=
      fun hxy => hxy.mono fun e he => List.mem_of_mem_eraseIdx he
    have hclosed : ∀ {x y}, Joined es x y → (P x ↔ P y) :=
      fun hxy => hxy.closed fun e he => hP e (List.mem_append_left _ he)
    have he : Joined es e.1 e.2 := .of_mem (List.mem_of_getElem? hi)
    rcases hjoined with hj | ⟨h₁, h₂⟩ | ⟨h₁, h₂⟩
    · exact h i e hi hPe hj
    · exact hab ((hclosed (hmono h₁)).1 hPe) ((hmono h₁).symm.trans (he.trans (hmono h₂).symm))
    · exact hab ((hclosed (he.trans (hmono h₂).symm)).1 hPe) ((hmono h₂).trans (he.symm.trans (hmono h₁)))
  · have hi' : i = es.length := by
      have := (List.getElem?_eq_some_iff.1 hi).1
      rw [List.length_append, List.length_singleton] at this
      omega
    subst hi'
    rw [List.getElem?_concat_length] at hi
    obtain rfl := Option.some.inj hi
    rw [List.eraseIdx_append_of_length_le le_rfl, Nat.sub_self] at hjoined
    simp only [List.eraseIdx_cons_zero, List.append_nil] at hjoined
    exact hab hPe hjoined

/-- No edge joins nodes that the other edges join. -/
def Acyclic (es : List (α × α)) : Prop := AcyclicOn (fun _ => True) es

theorem acyclic_nil : Acyclic ([] : List (α × α)) := fun _ _ h => nomatch h

theorem Acyclic.append (h : Acyclic es) (hab : ¬ Joined es a b) : Acyclic (es ++ [(a, b)]) :=
  AcyclicOn.append h (fun _ _ => Iff.rfl) fun _ => hab

end

/-! ## Parents that fall -/

def descent (n x : Nat) : Nat := n - x

/-- The parents hold the trees of the edges among the indices below `n`. -/
structure Represents (n : Nat) (es : List (Nat × Nat)) (parents : List Nat) : Prop where
  forest : Forest n (descent n) (parentAt parents)
  length : parents.length = n
  joined : ∀ i < n, ∀ j < n, (rootOf n (parentAt parents) i = rootOf n (parentAt parents) j ↔ Joined es i j)

theorem parentAt_range (n : Nat) : parentAt (List.range n) = id := by
  funext i
  rcases Nat.lt_or_ge i n with hi | hi
  · exact parentAt_eq (List.getElem?_range hi)
  · exact parentAt_outside (by simpa using hi)

theorem represents_range (n : Nat) : Represents n [] (List.range n) := by
  refine ⟨?_, List.length_range, fun i _ j _ => ?_⟩
  · rw [parentAt_range]
    exact Forest.refl n _
  · rw [parentAt_range, Forest.rootOf_of_root rfl, Forest.rootOf_of_root rfl, joined_nil]

/-- Pointing the higher of two roots at the lower takes an edge between their trees. -/
theorem Forest.link_joined {n : Nat} {es : List (Nat × Nat)} {parent : Nat → Nat} (h : Forest n (descent n) parent)
    (hjoined : ∀ p < n, ∀ q < n, (rootOf n parent p = rootOf n parent q ↔ Joined es p q)) {i j keep merge : Nat}
    (hi : i < n) (hj : j < n) (hroots : (rootOf n parent i = keep ∧ rootOf n parent j = merge) ∨
      (rootOf n parent i = merge ∧ rootOf n parent j = keep)) (hlt : keep < merge) :
    Forest n (descent n) (Function.update parent merge keep) ∧ ∀ p < n, ∀ q < n,
      (rootOf n (Function.update parent merge keep) p = rootOf n (Function.update parent merge keep) q ↔
        Joined (es ++ [(i, j)]) p q) := by
  have hroot : ∀ x, rootOf n parent i = x ∨ rootOf n parent j = x → x < n ∧ parent x = x := by
    rintro x (rfl | rfl)
    · exact ⟨h.rootOf_lt hi, h.parent_rootOf i⟩
    · exact ⟨h.rootOf_lt hj, h.parent_rootOf j⟩
  have hkeep := hroot keep (hroots.imp (·.1) (·.2))
  have hmerge := hroot merge (hroots.symm.imp (·.1) (·.2))
  have hforest := h.link_forest (descent n) hmerge.1 hkeep.1 hkeep.2 (fun _ _ => rfl) le_rfl
    (by rw [descent, descent]; omega) hlt.ne'
  refine ⟨hforest, fun p hp q hq => ?_⟩
  have hlink := h.link hmerge.2 hkeep.2 hforest hlt.ne'
  rw [hlink, hlink, link_eq_iff, joined_append, ← hjoined p hp q hq, ← hjoined p hp i hi, ← hjoined j hj q hq,
    ← hjoined p hp j hj, ← hjoined i hi q hq]
  rcases hroots with ⟨hi', hj'⟩ | ⟨hi', hj'⟩
  · rw [hi', hj']
    tauto
  · rw [hi', hj']
    tauto

theorem Represents.link {n : Nat} {es : List (Nat × Nat)} {parents : List Nat} (h : Represents n es parents)
    {i j keep merge : Nat} (hi : i < n) (hj : j < n)
    (hroots : (rootOf n (parentAt parents) i = keep ∧ rootOf n (parentAt parents) j = merge) ∨
      (rootOf n (parentAt parents) i = merge ∧ rootOf n (parentAt parents) j = keep)) (hlt : keep < merge) :
    Represents n (es ++ [(i, j)]) (parents.set merge keep) := by
  have hmerge : merge < n := by
    rcases hroots with ⟨-, rfl⟩ | ⟨rfl, -⟩
    · exact h.forest.rootOf_lt hj
    · exact h.forest.rootOf_lt hi
  have hset := parentAt_set (x := merge) (by rw [h.length]; exact hmerge) keep
  obtain ⟨hforest, hjoined⟩ := h.forest.link_joined h.joined hi hj hroots hlt
  exact ⟨hset ▸ hforest, by simp [h.length], hset ▸ hjoined⟩

end Rumoca.Lib
