import Mathlib.Data.Bool.Basic
import Rumoca.Lib.Forest
/-!
# Forests with signs

Edges `(x, y, o)` relate two nodes up to a sign, `o` for the opposite one. A
forest holds their closure when each node carries its sign relative to its
parent, and a class whose edges contradict each other is flagged at its root.
-/

namespace Rumoca.Lib

/-! ## Signed paths -/

section Signed

variable {α : Type*} {es fs : List (α × α × Bool)} {x y z : α} {s o : Bool}

/-- Two nodes joined by a path of edges, with the sign of the path. -/
inductive Signed (es : List (α × α × Bool)) : α → α → Bool → Prop
  | refl (x : α) : Signed es x x false
  | forth {x y z : α} {s o : Bool} (h : Signed es x y s) (he : (y, z, o) ∈ es) : Signed es x z (s ^^ o)
  | back {x y z : α} {s o : Bool} (h : Signed es x y s) (he : (z, y, o) ∈ es) : Signed es x z (s ^^ o)

namespace Signed

theorem of_mem (he : (x, y, o) ∈ es) : Signed es x y o := by
  have h := (show Signed es x x false from .refl x).forth he
  rwa [Bool.false_xor] at h

theorem of_mem_symm (he : (x, y, o) ∈ es) : Signed es y x o := by
  have h := (show Signed es y y false from .refl y).back he
  rwa [Bool.false_xor] at h

theorem trans (h : Signed es x y s) (h' : Signed es y z o) : Signed es x z (s ^^ o) := by
  induction h' with
  | refl => rwa [Bool.xor_false]
  | forth _ he ih =>
    rw [← Bool.xor_assoc]
    exact ih.forth he
  | back _ he ih =>
    rw [← Bool.xor_assoc]
    exact ih.back he

theorem symm (h : Signed es x y s) : Signed es y x s := by
  induction h with
  | refl => exact .refl _
  | forth _ he ih =>
    rw [Bool.xor_comm]
    exact (of_mem_symm he).trans ih
  | back _ he ih =>
    rw [Bool.xor_comm]
    exact (of_mem he).trans ih

theorem closure (h : Signed es x y s) (hsub : ∀ e ∈ es, Signed fs e.1 e.2.1 e.2.2) : Signed fs x y s := by
  induction h with
  | refl => exact .refl _
  | forth _ he ih => exact ih.trans (hsub _ he)
  | back _ he ih => exact ih.trans (hsub _ he).symm

theorem mono (h : Signed es x y s) (hsub : ∀ e ∈ es, e ∈ fs) : Signed fs x y s :=
  h.closure fun e he => of_mem (hsub e he)

end Signed

def SameSigns (es fs : List (α × α × Bool)) : Prop := ∀ x y s, Signed es x y s ↔ Signed fs x y s

theorem SameSigns.append {es' fs' : List (α × α × Bool)} (h : SameSigns es fs) (h' : ∀ e, e ∈ es' ↔ e ∈ fs') :
    SameSigns (es ++ es') (fs ++ fs') := by
  have half : ∀ {es fs es' fs' : List (α × α × Bool)}, SameSigns es fs → (∀ e ∈ es', e ∈ fs') →
      ∀ {x y s}, Signed (es ++ es') x y s → Signed (fs ++ fs') x y s := by
    intro es fs es' fs' h h' x y s hp
    refine hp.closure fun e he => ?_
    rcases List.mem_append.1 he with he | he
    · exact ((h _ _ _).1 (.of_mem he)).mono fun e he => List.mem_append_left _ he
    · exact .of_mem (List.mem_append_right _ (h' e he))
  exact fun x y s => ⟨half h fun e => (h' e).1, half (fun x y s => (h x y s).symm) fun e => (h' e).2⟩

theorem sameSigns_append_of_signed (h : ∀ e ∈ fs, Signed es e.1 e.2.1 e.2.2) : SameSigns (es ++ fs) es := by
  refine fun x y s => ⟨fun hp => hp.closure fun e he => ?_, fun hp => hp.mono fun e he => List.mem_append_left _ he⟩
  rcases List.mem_append.1 he with he | he
  · exact .of_mem he
  · exact h e he

end Signed

/-! ## Signs along parents -/

section Climb

variable {n : Nat} {height parent : Nat → Nat} {parity : Nat → Bool}

def signStep (parent : Nat → Nat) (parity : Nat → Bool) (p : Nat × Bool) : Nat × Bool :=
  if parent p.1 = p.1 then p else (parent p.1, p.2 ^^ parity p.1)

def signOf (n : Nat) (parent : Nat → Nat) (parity : Nat → Bool) (x : Nat) : Bool :=
  ((signStep parent parity)^[n] (x, false)).2

theorem signStep_iterate (k : Nat) (x : Nat) (b : Bool) : (signStep parent parity)^[k] (x, b) =
    (parent^[k] x, b ^^ ((signStep parent parity)^[k] (x, false)).2) := by
  induction k generalizing x b with
  | zero => simp
  | succ k ih =>
    simp only [Function.iterate_succ_apply]
    by_cases hx : parent x = x
    · have hstep : ∀ b, signStep parent parity (x, b) = (x, b) := fun b => by rw [signStep, if_pos hx]
      rw [hstep, hstep, hx]
      exact ih x b
    · have hstep : ∀ b, signStep parent parity (x, b) = (parent x, b ^^ parity x) := fun b => by rw [signStep, if_neg hx]
      rw [hstep, hstep, ih (parent x) (b ^^ parity x), ih (parent x) (false ^^ parity x)]
      simp

theorem signOf_root {x : Nat} (hx : parent x = x) : signOf n parent parity x = false := by
  have hstep : signStep parent parity (x, false) = (x, false) := by rw [signStep, if_pos hx]
  rw [signOf, Function.iterate_fixed hstep]

theorem signOf_step (h : Forest n height parent) {x : Nat} (hx : parent x ≠ x) :
    signOf n parent parity x = (parity x ^^ signOf n parent parity (parent x)) := by
  -- one more step from the root stays there
  have hend : (signStep parent parity)^[n + 1] (x, false) = (signStep parent parity)^[n] (x, false) := by
    rw [Function.iterate_succ_apply', signStep_iterate, signStep, if_pos]
    exact h.parent_rootOf x
  rw [signOf, ← hend, Function.iterate_succ_apply, signStep, if_neg hx, signStep_iterate]
  simp [signOf]

theorem signOf_link (h : Forest n height parent) (parity : Nat → Bool) {height' : Nat → Nat} {a b : Nat} (ha : parent a = a)
    (hb : parent b = b) (hforest : Forest n height' (Function.update parent a b)) (hab : a ≠ b) (rel : Bool) (x : Nat) :
    signOf n (Function.update parent a b) (Function.update parity a rel) x =
      (signOf n parent parity x ^^ (decide (rootOf n parent x = a) && rel)) := by
  refine h.climb_induct (P := fun x => signOf n (Function.update parent a b) (Function.update parity a rel) x =
    (signOf n parent parity x ^^ (decide (rootOf n parent x = a) && rel))) (fun x hx => ?_) (fun x hx ih => ?_) x
  · rw [signOf_root hx, Forest.rootOf_of_root hx]
    by_cases he : x = a
    · subst he
      rw [signOf_step hforest (by rw [Function.update_self]; exact hab.symm), Function.update_self, Function.update_self,
        signOf_root (by rw [Function.update_of_ne hab.symm, hb])]
      simp
    · rw [signOf_root (by rw [Function.update_of_ne he, hx])]
      simp [he]
  · have he : x ≠ a := fun he => hx (he ▸ ha)
    rw [signOf_step hforest (by rwa [Function.update_of_ne he]), Function.update_of_ne he, Function.update_of_ne he, ih,
      signOf_step h hx, h.rootOf_parent, Bool.xor_assoc]

end Climb

/-! ## Forests that hold signed edges -/

theorem xor_cancel (a b c : Bool) : ((a ^^ b) ^^ (b ^^ c)) = (a ^^ c) := by
  rw [Bool.xor_assoc, ← Bool.xor_assoc b, Bool.xor_self, Bool.false_xor]

theorem xor_cancel_right (a b c : Bool) : ((a ^^ b) ^^ (c ^^ b)) = (a ^^ c) := by
  rw [Bool.xor_comm c, xor_cancel]

/-- The trees are the classes of the edges, each node carries its sign, and the
flagged roots are those of the classes that contradict themselves. -/
structure SignedForest (n : Nat) (es : List (Nat × Nat × Bool)) (parent : Nat → Nat) (parity inconsistent : Nat → Bool) :
    Prop where
  forest : ∃ height, Forest n height parent
  sound : ∀ x, Signed es (rootOf n parent x) x (signOf n parent parity x)
  edge : ∀ e ∈ es, rootOf n parent e.1 = rootOf n parent e.2.1 ∧
    (inconsistent (rootOf n parent e.1) = false →
      e.2.2 = (signOf n parent parity e.1 ^^ signOf n parent parity e.2.1))
  flag : ∀ r, inconsistent r = true → Signed es r r true

namespace SignedForest

variable {n : Nat} {es : List (Nat × Nat × Bool)} {parent : Nat → Nat} {parity inconsistent : Nat → Bool}
  {x y : Nat} {s : Bool}

theorem start (n : Nat) : SignedForest n [] id (fun _ => false) (fun _ => false) where
  forest := ⟨id, Forest.refl n id⟩
  sound x := by
    rw [Forest.rootOf_of_root rfl, signOf_root rfl]
    exact .refl x
  edge _ he := by cases he
  flag _ h := by cases h

theorem signed (h : SignedForest n es parent parity inconsistent) (hp : Signed es x y s) :
    rootOf n parent x = rootOf n parent y ∧ (inconsistent (rootOf n parent x) = false →
      s = (signOf n parent parity x ^^ signOf n parent parity y)) := by
  induction hp with
  | refl => exact ⟨rfl, fun _ => (Bool.xor_self _).symm⟩
  | forth _ he ih =>
    have hedge := h.edge _ he
    refine ⟨ih.1.trans hedge.1, fun hc => ?_⟩
    have ho := hedge.2 (ih.1 ▸ hc)
    simp only at ho
    rw [ih.2 hc, ho, xor_cancel]
  | back _ he ih =>
    have hedge := h.edge _ he
    refine ⟨ih.1.trans hedge.1.symm, fun hc => ?_⟩
    have ho := hedge.2 (by rw [hedge.1]; exact ih.1 ▸ hc)
    simp only at ho
    rw [ih.2 hc, ho, xor_cancel_right]

theorem inconsistent_iff (h : SignedForest n es parent parity inconsistent) (x : Nat) :
    inconsistent (rootOf n parent x) = true ↔ Signed es x x true := by
  refine ⟨fun hflag => ?_, fun hp => ?_⟩
  · have hpath := ((h.sound x).symm.trans (h.flag _ hflag)).trans (h.sound x)
    simpa using hpath
  · by_contra hne
    have := (h.signed hp).2 (by simpa using hne)
    simp at this

theorem signed_of_root (h : SignedForest n es parent parity inconsistent) (hroot : rootOf n parent x = rootOf n parent y) :
    Signed es x y (signOf n parent parity x ^^ signOf n parent parity y) :=
  (h.sound x).symm.trans (hroot ▸ h.sound y)

theorem append_signed (h : SignedForest n es parent parity inconsistent) (hp : Signed es x y s) :
    SignedForest n (es ++ [(x, y, s)]) parent parity inconsistent where
  forest := h.forest
  sound z := (h.sound z).mono fun e he => List.mem_append_left _ he
  edge e he := by
    rcases List.mem_append.1 he with he | he
    · exact h.edge e he
    · rw [List.mem_singleton.1 he]
      exact h.signed hp
  flag r hr := (h.flag r hr).mono fun e he => List.mem_append_left _ he

theorem append_flag (h : SignedForest n es parent parity inconsistent)
    (hroot : rootOf n parent x = rootOf n parent y)
    (hne : s ≠ (signOf n parent parity x ^^ signOf n parent parity y)) :
    SignedForest n (es ++ [(x, y, s)]) parent parity
      (Function.update inconsistent (rootOf n parent x) true) where
  forest := h.forest
  sound z := (h.sound z).mono fun e he => List.mem_append_left _ he
  edge e he := by
    rcases List.mem_append.1 he with he | he
    · refine ⟨(h.edge e he).1, fun hc => (h.edge e he).2 ?_⟩
      by_cases hr : rootOf n parent e.1 = rootOf n parent x
      · rw [hr, Function.update_self] at hc
        cases hc
      · rwa [Function.update_of_ne hr] at hc
    · rw [List.mem_singleton.1 he]
      refine ⟨hroot, fun hc => ?_⟩
      rw [Function.update_self] at hc
      cases hc
  flag r hr := by
    by_cases he : r = rootOf n parent x
    · -- around the edge and back through the tree, the signs differ
      have hin : Signed (es ++ [(x, y, s)]) x y (signOf n parent parity x ^^ signOf n parent parity y) :=
        (h.signed_of_root hroot).mono fun e he => List.mem_append_left _ he
      have hedge : Signed (es ++ [(x, y, s)]) x y s := .of_mem (by simp)
      have hsound : Signed (es ++ [(x, y, s)]) r x (signOf n parent parity x) :=
        he ▸ (h.sound x).mono fun e he => List.mem_append_left _ he
      have hloop := (hsound.trans (hedge.trans hin.symm)).trans hsound.symm
      have htrue : (s ^^ (signOf n parent parity x ^^ signOf n parent parity y)) = true := by
        revert hne
        cases s <;> cases (signOf n parent parity x ^^ signOf n parent parity y) <;> simp
      rw [htrue, Bool.xor_comm (signOf n parent parity x), Bool.xor_assoc, Bool.xor_self, Bool.xor_false] at hloop
      exact hloop
    · rw [Function.update_of_ne he] at hr
      exact (h.flag r hr).mono fun e he => List.mem_append_left _ he

/-- An edge between two trees points one root at the other. -/
theorem append_link (h : SignedForest n es parent parity inconsistent) {keep merged : Nat}
    (hroots : (rootOf n parent x = keep ∧ rootOf n parent y = merged) ∨
      (rootOf n parent x = merged ∧ rootOf n parent y = keep)) (hx : x < n) (hy : y < n) (hne : keep ≠ merged) :
    SignedForest n (es ++ [(x, y, s)]) (Function.update parent merged keep)
      (Function.update parity merged ((signOf n parent parity x ^^ signOf n parent parity y) ^^ s))
      (Function.update inconsistent keep (inconsistent keep || inconsistent merged)) := by
  obtain ⟨height, hforest⟩ := h.forest
  have hroot : ∀ z, rootOf n parent x = z ∨ rootOf n parent y = z → z < n ∧ parent z = z := by
    rintro z (rfl | rfl)
    · exact ⟨hforest.rootOf_lt hx, hforest.parent_rootOf x⟩
    · exact ⟨hforest.rootOf_lt hy, hforest.parent_rootOf y⟩
  have hkeep := hroot keep (hroots.imp (·.1) (·.2))
  have hmerged := hroot merged (hroots.symm.imp (·.1) (·.2))
  have hforest' : Forest n (Function.update height keep (max (height keep) (height merged + 1)))
      (Function.update parent merged keep) :=
    hforest.link_forest _ hmerged.1 hkeep.1 hkeep.2 (fun z hz => Function.update_of_ne hz ..)
      (by rw [Function.update_self]; omega) (by rw [Function.update_self]; omega) hne.symm
  have hroots' := hforest.link hmerged.2 hkeep.2 hforest' hne.symm
  have hsigns' := signOf_link hforest parity hmerged.2 hkeep.2 hforest' hne.symm
    ((signOf n parent parity x ^^ signOf n parent parity y) ^^ s)
  have hold : ∀ {a b o}, Signed es a b o → Signed (es ++ [(x, y, s)]) a b o :=
    fun hp => hp.mono fun e he => List.mem_append_left _ he
  -- the way from the root kept to the root merged, over the new edge
  have hacross : Signed (es ++ [(x, y, s)]) keep merged ((signOf n parent parity x ^^ signOf n parent parity y) ^^ s) := by
    have hedge : Signed (es ++ [(x, y, s)]) x y s := .of_mem (by simp)
    rcases hroots with ⟨hk, hm⟩ | ⟨hm, hk⟩
    · have hpath := ((hk ▸ hold (h.sound x)).trans hedge).trans (hm ▸ hold (h.sound y)).symm
      rwa [Bool.xor_assoc, Bool.xor_comm s, ← Bool.xor_assoc] at hpath
    · have hpath := ((hk ▸ hold (h.sound y)).trans hedge.symm).trans (hm ▸ hold (h.sound x)).symm
      rwa [Bool.xor_comm, ← Bool.xor_assoc] at hpath
  refine ⟨⟨_, hforest'⟩, fun z => ?_, fun e he => ?_, fun r hr => ?_⟩
  · rw [hroots', hsigns']
    by_cases hz : rootOf n parent z = merged
    · rw [if_pos hz, decide_eq_true hz, Bool.true_and, Bool.xor_comm]
      exact hacross.trans (hz ▸ hold (h.sound z))
    · rw [if_neg hz, decide_eq_false hz, Bool.false_and, Bool.xor_false]
      exact hold (h.sound z)
  · rw [hroots', hroots', hsigns', hsigns']
    rcases List.mem_append.1 he with he | he
    · obtain ⟨hr, hs⟩ := h.edge e he
      rw [← hr]
      refine ⟨rfl, fun hc => ?_⟩
      have hc' : inconsistent (rootOf n parent e.1) = false := by
        by_cases hm : rootOf n parent e.1 = merged
        · rw [if_pos hm, Function.update_self, Bool.or_eq_false_iff] at hc
          exact hm ▸ hc.2
        · rw [if_neg hm] at hc
          by_cases hk : rootOf n parent e.1 = keep
          · rw [hk, Function.update_self, Bool.or_eq_false_iff] at hc
            exact hk ▸ hc.1
          · rwa [Function.update_of_ne hk] at hc
      rw [hs hc', xor_cancel_right]
    · rw [List.mem_singleton.1 he]
      rcases hroots with ⟨hk, hm⟩ | ⟨hm, hk⟩
      · rw [hk, hm, if_neg hne, if_pos rfl, decide_eq_false hne, decide_eq_true rfl]
        refine ⟨rfl, fun _ => ?_⟩
        cases signOf n parent parity x <;> cases signOf n parent parity y <;> cases s <;> rfl
      · rw [hk, hm, if_neg hne, if_pos rfl, decide_eq_false hne, decide_eq_true rfl]
        refine ⟨rfl, fun _ => ?_⟩
        cases signOf n parent parity x <;> cases signOf n parent parity y <;> cases s <;> rfl
  · by_cases hk : r = keep
    · rw [hk, Function.update_self, Bool.or_eq_true] at hr
      rw [hk]
      rcases hr with hr | hr
      · exact hold (h.flag keep hr)
      · have hloop := (hacross.trans (hold (h.flag merged hr))).trans hacross.symm
        rwa [Bool.xor_comm _ true, Bool.xor_assoc, Bool.xor_self, Bool.xor_false] at hloop
    · rw [Function.update_of_ne hk] at hr
      exact hold (h.flag r hr)

end SignedForest

end Rumoca.Lib
