import Mathlib.Algebra.BigOperators.Ring.Finset
import Mathlib.Algebra.Order.BigOperators.Group.Finset
import Mathlib.Data.Finset.Card
import Mathlib.Data.Fintype.Card
import Mathlib.Tactic
/-!
# Bipartite matchings

A matching of a relation `E : α → β → Prop` as a partial injective map from
the left nodes. `maximum_of_closed` is the certificate of a maximum one: a
set of left nodes whose neighbours are all owned inside it, with every left
node outside it matched. `IsPricing.weight_le` is the certificate of the
weight among the matchings of one size.
-/

namespace Rumoca.Lib

variable {α β : Type*}

/-- A partial injective choice of neighbours. -/
structure IsMatching (E : α → β → Prop) (m : α → Option β) : Prop where
  edge : ∀ a b, m a = some b → E a b
  injective : ∀ a a' b, m a = some b → m a' = some b → a = a'

/-- The nodes of `s` that `m` matches. -/
def matched [DecidableEq α] (s : Finset α) (m : α → Option β) : Finset α := s.filter fun a => (m a).isSome = true

/-- `m` matches as many nodes of `s` as any matching can. -/
def IsMaximum [DecidableEq α] (E : α → β → Prop) (s : Finset α) (m : α → Option β) : Prop :=
  ∀ m', IsMatching E m' → (matched s m').card ≤ (matched s m).card

/-- Every neighbour of a node in `Z` is owned by a node of `Z`. -/
def NeighborsOwned (E : α → β → Prop) (m : α → Option β) (Z : Set α) : Prop :=
  ∀ a ∈ Z, ∀ b, E a b → ∃ a' ∈ Z, m a' = some b

section
variable [DecidableEq α] {E : α → β → Prop} {s : Finset α} {m m' : α → Option β}

theorem mem_matched {a : α} : a ∈ matched s m ↔ a ∈ s ∧ ∃ b, m a = some b := by
  simp [matched, Option.isSome_iff_exists]

theorem card_matched_le_of_owned (hm' : IsMatching E m') {Z : Set α} (hZ : NeighborsOwned E m Z)
    (hm : ∀ a b, m a = some b → a ∈ s) [DecidablePred (· ∈ Z)] :
    ((matched s m').filter (· ∈ Z)).card ≤ ((matched s m).filter (· ∈ Z)).card := by
  have hown : ∀ a : (matched s m').filter (· ∈ Z), ∃ a' ∈ (matched s m).filter (· ∈ Z), m a' = m' a := by
    rintro ⟨a, ha⟩
    obtain ⟨ham, haZ⟩ := Finset.mem_filter.1 ha
    obtain ⟨-, b, hb⟩ := mem_matched.1 ham
    obtain ⟨a', haZ', ha'⟩ := hZ a haZ b (hm'.edge a b hb)
    exact ⟨a', Finset.mem_filter.2 ⟨mem_matched.2 ⟨hm a' b ha', b, ha'⟩, haZ'⟩, ha'.trans hb.symm⟩
  choose f hf hfm using hown
  have hinj : Function.Injective fun a => (⟨f a, hf a⟩ : (matched s m).filter (· ∈ Z)) := by
    intro a a' haa
    obtain ⟨-, b, hb⟩ := mem_matched.1 (Finset.mem_filter.1 a.2).1
    have hfe : f a = f a' := congrArg Subtype.val haa
    exact Subtype.ext (hm'.injective a a' b hb (by rw [← hfm a', ← hfe, hfm a, hb]))
  simpa using Fintype.card_le_of_injective _ hinj

theorem maximum_of_closed {Z : Set α} (hZ : NeighborsOwned E m Z) (hm : ∀ a b, m a = some b → a ∈ s)
    (hout : ∀ a ∈ s, a ∉ Z → ∃ b, m a = some b) : IsMaximum E s m := by
  classical
  intro m' hm'
  have hin := card_matched_le_of_owned hm' hZ hm
  have hrest : (matched s m').filter (· ∉ Z) ⊆ (matched s m).filter (· ∉ Z) := by
    intro a ha
    obtain ⟨ham, haZ⟩ := Finset.mem_filter.1 ha
    have has := (mem_matched.1 ham).1
    exact Finset.mem_filter.2 ⟨mem_matched.2 ⟨has, hout a has haZ⟩, haZ⟩
  rw [← Finset.card_filter_add_card_filter_not (s := matched s m') (· ∈ Z),
    ← Finset.card_filter_add_card_filter_not (s := matched s m) (· ∈ Z)]
  exact Nat.add_le_add hin (Finset.card_le_card hrest)

theorem IsMaximum.of_subset (h : IsMaximum E s m) (hsub : ∀ a ∈ s, ∀ b, m a = some b → ∃ b', m' a = some b') :
    IsMaximum E s m' := by
  intro m'' hm''
  refine (h m'' hm'').trans (Finset.card_le_card fun a ha => ?_)
  obtain ⟨has, b, hb⟩ := mem_matched.1 ha
  exact mem_matched.2 ⟨has, hsub a has b hb⟩

theorem card_matched_le_min {t : Finset β} (hm : IsMatching E m) (ht : ∀ a ∈ s, ∀ b, m a = some b → b ∈ t) :
    (matched s m).card ≤ min s.card t.card := by
  classical
  have hinj : Set.InjOn m (matched s m) := fun a ha a' _ heq => by
    obtain ⟨-, b, hb⟩ := mem_matched.1 ha
    exact hm.injective a a' b hb (heq ▸ hb)
  have himage : (matched s m).image m ⊆ t.image some := by
    intro o ho
    obtain ⟨a, ha, rfl⟩ := Finset.mem_image.1 ho
    obtain ⟨has, b, hb⟩ := mem_matched.1 ha
    exact Finset.mem_image.2 ⟨b, ht a has b hb, hb.symm⟩
  refine le_min (Finset.card_filter_le _ _) ?_
  calc (matched s m).card = ((matched s m).image m).card := (Finset.card_image_of_injOn hinj).symm
    _ ≤ (t.image some).card := Finset.card_le_card himage
    _ ≤ t.card := Finset.card_image_le

theorem matched_eq (h : ∀ a ∈ s, ∃ b, m a = some b) : matched s m = s :=
  Finset.filter_true_of_mem fun a ha => by
    obtain ⟨b, hb⟩ := h a ha
    rw [hb]
    rfl

/-- Right nodes owned without `root` cannot hold the matches of their owners and of `root`. -/
theorem IsMatching.no_extra_owner [DecidableEq β] (hm : IsMatching E m) (V : Finset β) (owner : β → α) (root : α)
    (hinj : Set.InjOn owner V) (hroot : root ∉ V.image owner)
    (hinto : ∀ a ∈ insert root (V.image owner), ∃ b ∈ V, m a = some b) : False := by
  have hall : matched (insert root (V.image owner)) m = insert root (V.image owner) :=
    matched_eq fun a ha => by
      obtain ⟨b, -, hb⟩ := hinto a ha
      exact ⟨b, hb⟩
  have hle := card_matched_le_min (s := insert root (V.image owner)) (t := V) hm fun a ha b hb => by
    obtain ⟨b', hb', hab'⟩ := hinto a ha
    rw [hb] at hab'
    exact Option.some.inj hab' ▸ hb'
  rw [hall, Finset.card_insert_of_notMem hroot, Finset.card_image_of_injOn hinj] at hle
  omega

theorem IsMaximum.of_all (h : ∀ a ∈ s, ∃ b, m a = some b) : IsMaximum E s m := fun m' _ => by
  rw [matched_eq h]
  exact Finset.card_filter_le _ _

theorem IsMaximum.all (h : IsMaximum E s m) (hm' : IsMatching E m') (hall : ∀ a ∈ s, ∃ b, m' a = some b) :
    ∀ a ∈ s, ∃ b, m a = some b := by
  have hle := h m' hm'
  rw [matched_eq hall] at hle
  have heq : matched s m = s := Finset.eq_of_subset_of_card_le (Finset.filter_subset _ _) hle
  exact fun a ha => (mem_matched.1 (heq.symm ▸ ha)).2

end

/-! ## Weight -/

section
variable {E : α → β → Prop} {s : Finset α} {t : Finset β} {m m' : α → Option β}

def totalWeight (s : Finset α) (weight : α → β → Int) (m : α → Option β) : Int :=
  ∑ a ∈ s, (m a).elim 0 (weight a)

theorem totalWeight_add (f g : α → β → Int) :
    totalWeight s (fun a b => f a b + g a b) m = totalWeight s f m + totalWeight s g m := by
  rw [totalWeight, totalWeight, totalWeight, ← Finset.sum_add_distrib]
  refine Finset.sum_congr rfl fun a _ => ?_
  cases m a with
  | none => rfl
  | some b => rfl

theorem totalWeight_const [DecidableEq α] (k : Int) :
    totalWeight s (fun _ _ => k) m = k * (matched s m).card := by
  have hterm : ∀ a ∈ s, (m a).elim 0 (fun _ => k) = if (m a).isSome = true then k else 0 := fun a _ => by
    cases m a with
    | none => rfl
    | some b => rfl
  rw [totalWeight, Finset.sum_congr rfl hterm, ← Finset.sum_filter, Finset.sum_const, nsmul_eq_mul, mul_comm]
  rfl

open Classical in
/-- A weight of the right nodes alone, counted on their side. -/
theorem totalWeight_right (hm : IsMatching E m) (ht : ∀ a ∈ s, ∀ b, m a = some b → b ∈ t) (g : β → Int) :
    totalWeight s (fun _ b => g b) m = ∑ b ∈ t, if ∃ a ∈ s, m a = some b then g b else 0 := by
  have hterm : ∀ a ∈ s, (m a).elim 0 g = ∑ b ∈ t, if m a = some b then g b else 0 := fun a ha => by
    cases hb : m a with
    | none => simp
    | some b =>
      have hmem := ht a ha b hb
      simp [hmem]
  rw [totalWeight, Finset.sum_congr rfl hterm, Finset.sum_comm]
  refine Finset.sum_congr rfl fun b _ => ?_
  by_cases howned : ∃ a ∈ s, m a = some b
  · obtain ⟨a, ha, hb⟩ := howned
    rw [if_pos ⟨a, ha, hb⟩, Finset.sum_eq_single a, if_pos hb]
    · exact fun a' _ hne => if_neg fun hb' => hne (hm.injective a' a b hb' hb)
    · exact fun hnot => absurd ha hnot
  · rw [if_neg howned]
    exact Finset.sum_eq_zero fun a ha => if_neg fun hb => howned ⟨a, ha, hb⟩

/-- Prices of both sides: they cover the pairs left out, pay no more than the pairs chosen weigh, and rank
what is matched above what is free. -/
structure IsPricing (E : α → β → Prop) (s : Finset α) (t : Finset β) (weight : α → β → Int) (m : α → Option β)
    (y : α → Int) (z : β → Int) (σ τ : Int) : Prop where
  covers : ∀ a b, E a b → m a ≠ some b → weight a b ≤ y a + z b
  pays : ∀ a b, m a = some b → y a + z b ≤ weight a b
  left_matched : ∀ a b, m a = some b → σ ≤ y a
  left_free : ∀ a ∈ s, m a = none → y a ≤ σ
  right_matched : ∀ a b, m a = some b → τ ≤ z b
  right_free : ∀ b ∈ t, (∀ a ∈ s, m a ≠ some b) → z b ≤ τ

theorem IsPricing.weight_le [DecidableEq α] {weight : α → β → Int} {y : α → Int} {z : β → Int} {σ τ : Int}
    (h : IsPricing E s t weight m y z σ τ) (hm : IsMatching E m) (hm' : IsMatching E m')
    (ht : ∀ a ∈ s, ∀ b, E a b → b ∈ t) (hcard : (matched s m').card = (matched s m).card) :
    totalWeight s weight m' ≤ totalWeight s weight m := by
  have hsplit : weight = fun a b => (weight a b - (y a + z b)) + ((y a - σ) + ((z b - τ) + (σ + τ))) := by
    funext a b
    ring
  have hpairs : totalWeight s (fun a b => weight a b - (y a + z b)) m' ≤
      totalWeight s (fun a b => weight a b - (y a + z b)) m := by
    refine Finset.sum_le_sum fun a _ => ?_
    cases hb' : m' a with
    | none =>
      cases hb : m a with
      | none => rfl
      | some b => exact sub_nonneg.2 (h.pays a b hb)
    | some b' =>
      have hcovers := h.covers a b' (hm'.edge a b' hb')
      cases hb : m a with
      | none => exact sub_nonpos.2 (hcovers (by simp [hb]))
      | some b =>
        by_cases heq : b = b'
        · rw [heq]
        · have hpays := h.pays a b hb
          have hcovers := hcovers (by simpa [hb] using heq)
          simp only [Option.elim_some]
          omega
  have hleft : totalWeight s (fun a _ => y a - σ) m' ≤ totalWeight s (fun a _ => y a - σ) m := by
    refine Finset.sum_le_sum fun a ha => ?_
    cases hb : m a with
    | none =>
      have hfree := h.left_free a ha hb
      cases m' a with
      | none => rfl
      | some b' => exact sub_nonpos.2 hfree
    | some b =>
      have hmatched := h.left_matched a b hb
      cases m' a with
      | none => exact sub_nonneg.2 hmatched
      | some b' => rfl
  have hright : totalWeight s (fun _ b => z b - τ) m' ≤ totalWeight s (fun _ b => z b - τ) m := by
    rw [totalWeight_right hm' (fun a ha b hb => ht a ha b (hm'.edge a b hb)),
      totalWeight_right hm fun a ha b hb => ht a ha b (hm.edge a b hb)]
    refine Finset.sum_le_sum fun b hb => ?_
    by_cases howned : ∃ a ∈ s, m a = some b
    · obtain ⟨a, -, ha⟩ := id howned
      have hmatched := h.right_matched a b ha
      rw [if_pos howned]
      split <;> omega
    · have hfree := h.right_free b hb fun a ha hab => howned ⟨a, ha, hab⟩
      rw [if_neg howned]
      split <;> omega
  have hsize : totalWeight s (fun _ _ => σ + τ) m' = totalWeight s (fun _ _ => σ + τ) m := by
    rw [totalWeight_const, totalWeight_const, hcard]
  rw [hsplit]
  simp only [totalWeight_add] at hpairs hleft hright hsize ⊢
  omega

end

end Rumoca.Lib
