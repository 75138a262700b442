import Mathlib.Data.List.Induction
import Rumoca.Lib.Forest
/-!
# How many edges a forest has

A union of trees, with one node of each chosen, has as many edges as nodes that
are not chosen: taking the last edge away splits one tree, and the end that the
chosen node is cut off from is chosen for the new one.
-/

namespace Rumoca.Lib

universe u

variable {α : Type u} {es : List (α × α)} {a b : α}

theorem Acyclic.of_append (h : Acyclic (es ++ [(a, b)])) : Acyclic es ∧ ¬ Joined es a b := by
  constructor
  · intro i e hi _ hj
    have hlt : i < es.length := (List.getElem?_eq_some_iff.1 hi).1
    refine h i e (by rw [List.getElem?_append_left hlt, hi]) trivial ?_
    rw [List.eraseIdx_append_of_lt_length hlt]
    exact hj.mono fun e he => List.mem_append_left _ he
  · intro hj
    refine h es.length (a, b) List.getElem?_concat_length trivial ?_
    rw [List.eraseIdx_append_of_length_le le_rfl, Nat.sub_self]
    simpa using hj

/-- The edges of a forest inside a union `C` of its trees, of each of which `R` has one node. -/
theorem Acyclic.length_add_card [DecidableEq α] (h : Acyclic es) {C R : Finset α} (hC : ∀ e ∈ es, e.1 ∈ C ↔ e.2 ∈ C)
    (hR : R ⊆ C) (hcover : ∀ x ∈ C, ∃ r ∈ R, Joined es r x) (hone : ∀ r ∈ R, ∀ r' ∈ R, Joined es r r' → r = r') :
    (es.filter (·.1 ∈ C)).length + R.card = C.card := by
  induction es using List.reverseRecOn generalizing R with
  | nil =>
    -- every node is a tree of its own
    have hRC : R = C := hR.antisymm fun x hx => by
      obtain ⟨r, hr, hj⟩ := hcover x hx
      exact joined_nil.1 hj ▸ hr
    rw [hRC, List.filter_nil, List.length_nil, Nat.zero_add]
  | append_singleton es e ih =>
    obtain ⟨a, b⟩ := e
    obtain ⟨hes, hab⟩ := h.of_append
    have hC' : ∀ e ∈ es, e.1 ∈ C ↔ e.2 ∈ C := fun e he => hC e (List.mem_append_left _ he)
    have hclosed : ∀ {x y}, Joined es x y → (x ∈ C ↔ y ∈ C) := fun hxy => hxy.closed hC'
    have hends : a ∈ C ↔ b ∈ C := hC (a, b) (by simp)
    rw [List.filter_append, List.length_append]
    by_cases ha : a ∈ C
    swap
    · -- an edge outside joins nothing inside
      have hsame : ∀ {x y}, x ∈ C → Joined (es ++ [(a, b)]) x y → Joined es x y := by
        intro x y hx hj
        rcases joined_append.1 hj with hj | ⟨hxa, -⟩ | ⟨hxb, -⟩
        · exact hj
        · exact absurd ((hclosed hxa).1 hx) ha
        · exact absurd (hends.2 ((hclosed hxb).1 hx)) ha
      have hnone : ([(a, b)] : List (α × α)).filter (·.1 ∈ C) = [] := by simp [ha]
      rw [hnone, List.length_nil, Nat.add_zero]
      refine ih hes hC' hR (fun x hx => ?_) fun r hr r' hr' hj => hone r hr r' hr' (joined_append.2 (.inl hj))
      obtain ⟨r, hr, hj⟩ := hcover x hx
      exact ⟨r, hr, hsame (hR hr) hj⟩
    have hb : b ∈ C := hends.1 ha
    have hsingle : (([(a, b)] : List (α × α)).filter (·.1 ∈ C)).length = 1 := by simp [ha]
    -- the tree of the edge, cut at it: the other end `v` is chosen for the part without `r`
    have hcut : ∀ u v, (u = a ∧ v = b) ∨ (u = b ∧ v = a) → ∀ r ∈ R, Joined es r u →
        (es.filter (·.1 ∈ C)).length + (R.card + 1) = C.card := by
      intro u v huv r hr hru
      have hjoin : ∀ {x y}, Joined (es ++ [(a, b)]) x y ↔
          Joined es x y ∨ (Joined es x u ∧ Joined es v y) ∨ (Joined es x v ∧ Joined es u y) := by
        intro x y
        rw [joined_append]
        rcases huv with ⟨rfl, rfl⟩ | ⟨rfl, rfl⟩
        · exact Iff.rfl
        · exact or_congr_right or_comm
      have hv : v ∈ C := by rcases huv with ⟨-, rfl⟩ | ⟨-, rfl⟩ <;> assumption
      have hne : ¬ Joined es u v := by
        rcases huv with ⟨rfl, rfl⟩ | ⟨rfl, rfl⟩
        · exact hab
        · exact fun h => hab h.symm
      -- a chosen node joined to `v` would be `r`
      have hfar : ∀ r' ∈ R, ¬ Joined es r' v := by
        intro r' hr' hj
        obtain rfl := hone r hr r' hr' (hjoin.2 (.inr (.inl ⟨hru, hj.symm⟩)))
        exact hne (hru.symm.trans hj)
      have hvR : v ∉ R := fun hvR => hfar v hvR (.refl _ _)
      rw [← Finset.card_insert_of_notMem hvR]
      refine ih hes hC' (Finset.insert_subset hv hR) (fun x hx => ?_) fun r₁ hr₁ r₂ hr₂ hj => ?_
      · obtain ⟨r', hr', hj⟩ := hcover x hx
        rcases hjoin.1 hj with hj | ⟨-, hvx⟩ | ⟨hrv, -⟩
        · exact ⟨r', Finset.mem_insert_of_mem hr', hj⟩
        · exact ⟨v, Finset.mem_insert_self _ _, hvx⟩
        · exact absurd hrv (hfar r' hr')
      · rcases Finset.mem_insert.1 hr₁ with h₁ | h₁ <;> rcases Finset.mem_insert.1 hr₂ with h₂ | h₂
        · rw [h₁, h₂]
        · exact absurd (h₁ ▸ hj.symm) (hfar r₂ h₂)
        · exact absurd (h₂ ▸ hj) (hfar r₁ h₁)
        · exact hone r₁ h₁ r₂ h₂ (joined_append.2 (.inl hj))
    obtain ⟨r, hr, hj⟩ := hcover a ha
    rw [hsingle]
    have hcount : (es.filter (·.1 ∈ C)).length + (R.card + 1) = C.card := by
      rcases joined_append.1 hj with hj | ⟨hj, -⟩ | ⟨hj, -⟩
      · exact hcut a b (.inl ⟨rfl, rfl⟩) r hr hj
      · exact hcut a b (.inl ⟨rfl, rfl⟩) r hr hj
      · exact hcut b a (.inr ⟨rfl, rfl⟩) r hr hj
    omega

/-! ## Spanning trees -/

/-- The edges span the nodes below `n` as one tree: they connect them, and are one fewer. -/
structure IsSpanningTree (n : Nat) (es : List (Nat × Nat)) : Prop where
  inside : ∀ e ∈ es, e.1 < n ∧ e.2 < n
  connected : ∀ i < n, ∀ j < n, Joined es i j
  edges : es.length + 1 = n

theorem IsSpanningTree.perm {n : Nat} {es fs : List (Nat × Nat)} (h : IsSpanningTree n es) (hp : es.Perm fs) :
    IsSpanningTree n fs :=
  ⟨fun e he => h.inside e (hp.mem_iff.2 he), fun i hi j hj => (h.connected i hi j hj).mono fun _ he => hp.mem_iff.1 he,
    hp.length_eq ▸ h.edges⟩

theorem isSpanningTree_of_groups {n : Nat} {group : Nat → Nat} {order : List Nat} {anchor : Nat}
    {inner outer : List (Nat × Nat)} (hinner : ∀ e ∈ inner, e.1 < n ∧ e.2 < n)
    (houter : ∀ e ∈ outer, e.1 < n ∧ e.2 < n)
    (hsame : ∀ i < n, ∀ j < n, group i = group j → Joined inner i j) (hcount : inner.length + order.length = n)
    (hnodup : order.Nodup) (horder : ∀ g, g ∈ order ↔ ∃ i < n, group i = g) (hanchor : anchor ∈ order)
    (hacyclic : Acyclic (outer.map fun e => (group e.1, group e.2)))
    (hspan : ∀ g ∈ order, Joined (outer.map fun e => (group e.1, group e.2)) anchor g) :
    IsSpanningTree n (inner ++ outer) := by
  have hmem : ∀ i < n, group i ∈ order.toFinset := fun i hi => List.mem_toFinset.2 ((horder _).2 ⟨i, hi, rfl⟩)
  have hends : ∀ e ∈ outer.map fun e => (group e.1, group e.2), e.1 ∈ order.toFinset ∧ e.2 ∈ order.toFinset := by
    intro e he
    obtain ⟨f, hf, rfl⟩ := List.mem_map.1 he
    exact ⟨hmem _ (houter f hf).1, hmem _ (houter f hf).2⟩
  refine ⟨fun e he => (List.mem_append.1 he).elim (hinner e) (houter e), fun i hi j hj => ?_, ?_⟩
  · -- every node of a group that the outer edges reach is reached from `i`
    have hreach : ∀ x y, Joined (outer.map fun e => (group e.1, group e.2)) x y →
        ((∀ k < n, group k = x → Joined (inner ++ outer) i k) ↔
          ∀ k < n, group k = y → Joined (inner ++ outer) i k) := by
      intro x y hxy
      have hinto : ∀ k < n, ∀ l < n, group k = group l → Joined (inner ++ outer) k l := fun k hk l hl hkl =>
        (hsame k hk l hl hkl).mono fun _ he => List.mem_append_left _ he
      refine hxy.closed (P := fun x => ∀ k < n, group k = x → Joined (inner ++ outer) i k) fun e he => ?_
      obtain ⟨f, hf, rfl⟩ := List.mem_map.1 he
      obtain ⟨h₁, h₂⟩ := houter f hf
      have hedge : Joined (inner ++ outer) f.1 f.2 := .of_mem (List.mem_append_right _ hf)
      constructor
      · exact fun h k hk hkx => ((h f.1 h₁ rfl).trans hedge).trans (hinto _ h₂ k hk hkx.symm)
      · exact fun h k hk hkx => ((h f.2 h₂ rfl).trans hedge.symm).trans (hinto _ h₁ k hk hkx.symm)
    have hgroups : Joined (outer.map fun e => (group e.1, group e.2)) (group i) (group j) :=
      (hspan _ ((horder _).2 ⟨i, hi, rfl⟩)).symm.trans (hspan _ ((horder _).2 ⟨j, hj, rfl⟩))
    refine (hreach _ _ hgroups).1 (fun k hk hki => ?_) j hj rfl
    exact (hsame i hi k hk hki.symm).mono fun _ he => List.mem_append_left _ he
  · have hcard := hacyclic.length_add_card (C := order.toFinset) (R := {anchor})
      (fun e he => iff_of_true (hends e he).1 (hends e he).2) (by simpa using hanchor)
      (fun x hx => ⟨anchor, Finset.mem_singleton_self _, hspan x (List.mem_toFinset.1 hx)⟩)
      (fun r hr r' hr' _ => by rw [Finset.mem_singleton.1 hr, Finset.mem_singleton.1 hr'])
    rw [List.filter_eq_self.2 fun e he => by simpa using (hends e he).1, List.length_map, Finset.card_singleton,
      List.toFinset_card_of_nodup hnodup] at hcard
    rw [List.length_append]
    omega

end Rumoca.Lib
