import Rumoca.Lib.Bipartite
/-!
# Alternating reachability

From an unmatched left node along an edge to a right node, and from there to
its owner. `IsMaximum.owned` : under a maximum matching every right node so
reached has an owner. `card_of_closure` counts a set of left nodes that is
closed this way against its neighbours.
-/

namespace Rumoca.Lib

variable {α β : Type*}

/-- `k` steps along an edge and back to the owner of its right end. -/
inductive Alternates (E : α → β → Prop) (m : α → Option β) (root : α) : Nat → α → Prop where
  | refl : Alternates E m root 0 root
  | tail {k : Nat} {a a' : α} {b : β} : Alternates E m root k a → E a b → m a' = some b → Alternates E m root (k + 1) a'

section
variable [DecidableEq α] {E : α → β → Prop} {s : Finset α} {m : α → Option β}

theorem IsMatching.assign (hm : IsMatching E m) {a : α} {b : β} (he : E a b) (hfree : ∀ x, m x ≠ some b) :
    IsMatching E (Function.update m a (some b)) := by
  refine ⟨fun x y hxy => ?_, fun x x' y hx hx' => ?_⟩
  · by_cases hxa : x = a
    · rw [hxa, Function.update_self, Option.some.injEq] at hxy
      exact hxa ▸ hxy ▸ he
    · rw [Function.update_of_ne hxa] at hxy
      exact hm.edge x y hxy
  · by_cases hxa : x = a <;> by_cases hxa' : x' = a
    · exact hxa.trans hxa'.symm
    · rw [hxa, Function.update_self] at hx
      rw [Function.update_of_ne hxa'] at hx'
      exact absurd (hx'.trans hx.symm) (hfree x')
    · rw [Function.update_of_ne hxa] at hx
      rw [hxa', Function.update_self] at hx'
      exact absurd (hx.trans hx'.symm) (hfree x)
    · rw [Function.update_of_ne hxa] at hx
      rw [Function.update_of_ne hxa'] at hx'
      exact hm.injective x x' y hx hx'

/-- An alternating path to a right node nobody owns makes room for its root. -/
theorem exists_augmented {root : α} (hroots : root ∈ s) :
    ∀ (k : Nat) {m : α → Option β} {a : α} {b : β}, IsMatching E m → m root = none → Alternates E m root k a →
      E a b → (∀ x, m x ≠ some b) → ∃ m', IsMatching E m' ∧ insert root (matched s m) ⊆ matched s m' := by
  intro k
  induction k using Nat.strong_induction_on with
  | _ k ih =>
    intro m a b hm hroot hpath he hfree
    have hassign := hm.assign he hfree
    have hgrow : ∀ x, (∃ y, m x = some y) → ∃ y, Function.update m a (some b) x = some y := fun x hx => by
      by_cases hxa : x = a
      · exact ⟨b, by rw [hxa, Function.update_self]⟩
      · rwa [Function.update_of_ne hxa]
    have hsub : matched s m ⊆ matched s (Function.update m a (some b)) := fun x hx => by
      obtain ⟨hxs, hxm⟩ := mem_matched.1 hx
      exact mem_matched.2 ⟨hxs, hgrow x hxm⟩
    cases hpath with
    | refl =>
      refine ⟨_, hassign, Finset.insert_subset ?_ hsub⟩
      exact mem_matched.2 ⟨hroots, b, Function.update_self root (some b) m⟩
    | @tail j a₀ _ b₀ hpre he₀ hown =>
      by_cases hearly : ∃ i ≤ j, Alternates E m root i a
      · -- the path already passed `a`: cut the detour
        obtain ⟨i, hi, hpath⟩ := hearly
        exact ih i (by omega) hm hroot hpath he hfree
      · have hne : root ≠ a := fun h => by
          rw [h, hown] at hroot
          cases hroot
        have hkept : ∀ i x, i ≤ j → Alternates E m root i x → Alternates E (Function.update m a (some b)) root i x := by
          intro i x hi hx
          induction hx with
          | refl => exact .refl
          | @tail i x x' y hx hxy hx' ih =>
            have hxa : x' ≠ a := fun h => hearly ⟨i + 1, hi, h ▸ hx.tail hxy hx'⟩
            exact (ih (by omega)).tail hxy (by rw [Function.update_of_ne hxa, hx'])
        have hfree₀ : ∀ x, Function.update m a (some b) x ≠ some b₀ := fun x hx => by
          by_cases hxa : x = a
          · rw [hxa, Function.update_self, Option.some.injEq] at hx
            exact hfree a (hx ▸ hown)
          · rw [Function.update_of_ne hxa] at hx
            exact hxa (hm.injective x a b₀ hx hown)
        obtain ⟨m', hm', hsub'⟩ := ih j (by omega) hassign (by rw [Function.update_of_ne hne, hroot])
          (hkept j a₀ (le_refl j) hpre) he₀ hfree₀
        exact ⟨m', hm', (Finset.insert_subset_insert root hsub).trans hsub'⟩

/-- Under a maximum matching the right nodes reached from an unmatched left node are owned. -/
theorem IsMaximum.owned (hmax : IsMaximum E s m) (hm : IsMatching E m) {root : α} (hroots : root ∈ s)
    (hroot : m root = none) {k : Nat} {a : α} {b : β} (hpath : Alternates E m root k a) (he : E a b) :
    ∃ x, m x = some b := by
  by_contra hfree
  push Not at hfree
  obtain ⟨m', hm', hsub⟩ := exists_augmented hroots k hm hroot hpath he hfree
  have hnot : root ∉ matched s m := fun h => by
    obtain ⟨-, b, hb⟩ := mem_matched.1 h
    rw [hroot] at hb
    cases hb
  have hcard := Finset.card_le_card hsub
  rw [Finset.card_insert_of_notMem hnot] at hcard
  have := hmax m' hm'
  omega

omit [DecidableEq α] in
/-- Left nodes that hold every unmatched one and the owners of their
neighbours outnumber these neighbours by the unmatched nodes. -/
theorem card_of_closure {Z : Finset α} {U : Finset β} (hm : IsMatching E m) (hZ : Z ⊆ s)
    (hneighbor : ∀ a ∈ Z, ∀ b, E a b → b ∈ U) (howner : ∀ b ∈ U, ∃ a ∈ Z, m a = some b)
    (hall : ∀ a ∈ s, m a = none → a ∈ Z) : Z.card = U.card + (s.filter fun a => m a = none).card := by
  have hmatched : U.card = (Z.filter fun a => ¬ m a = none).card := by
    choose owner hownerZ hown using howner
    refine Finset.card_bij owner (fun b hb => ?_) (fun b hb b' hb' heq => ?_) fun a ha => ?_
    · exact Finset.mem_filter.2 ⟨hownerZ b hb, by rw [hown b hb]; exact Option.some_ne_none b⟩
    · exact Option.some.inj ((hown b hb).symm.trans (heq ▸ hown b' hb'))
    · obtain ⟨haZ, hne⟩ := Finset.mem_filter.1 ha
      obtain ⟨b, hb⟩ := Option.ne_none_iff_exists'.1 hne
      have hbU : b ∈ U := hneighbor a haZ b (hm.edge a b hb)
      exact ⟨b, hbU, hm.injective _ a b (hown b hbU) hb⟩
  have hunmatched : (Z.filter fun a => m a = none) = s.filter fun a => m a = none := by
    ext a
    simp only [Finset.mem_filter]
    exact ⟨fun h => ⟨hZ h.1, h.2⟩, fun h => ⟨hall a h.1 h.2, h.2⟩⟩
  rw [← Finset.card_filter_add_card_filter_not (s := Z) (fun a => m a = none), ← hmatched, hunmatched, Nat.add_comm]

end

end Rumoca.Lib
