import Mathlib.Data.Finset.Max
import Mathlib.Data.Set.Card
/-!
# Nearness on a line

Points of a linear order that count as one within a tolerance are near: a
relation that is reflexive, symmetric and convex, but need not be transitive.
A point lies past another when it is greater and not near to it.

A query that finds the least point of a finite set past a given one, asked
again from each point it found, finds points that are pairwise not near, and
near every point of the set.
-/

namespace Rumoca.Lib

section

variable {K : Type} {next : K → Option K} {a b : K}

/-- The first `n` points that a query for the next one finds, each from the one before. -/
def successors (next : K → Option K) : (n : Nat) → (a : K) → List K
  | 0, _ => []
  | n + 1, a =>
    match next a with
    | none => []
    | some b => b :: successors next n b

theorem successors_of_none (h : next a = none) (n : Nat) : successors next n a = [] := by
  cases n with
  | zero => rfl
  | succ n => simp only [successors, h]

theorem successors_of_some (h : next a = some b) (n : Nat) :
    successors next (n + 1) a = b :: successors next n b := by
  simp only [successors, h]

end

variable {K : Type} [LinearOrder K]

/-- A relation as a tolerance gives it. -/
structure Nearness (near : K → K → Prop) : Prop where
  refl : ∀ a, near a a
  symm : ∀ a b, near a b → near b a
  convex : ∀ a b c, a ≤ b → b ≤ c → near a c → near a b ∧ near b c

/-- `b` lies past `a`: after it, and not near to it. -/
def Past (near : K → K → Prop) (a b : K) : Prop := a < b ∧ ¬near b a

variable {near : K → K → Prop}

theorem not_past_iff {a b : K} : ¬Past near a b ↔ b ≤ a ∨ near b a := by
  unfold Past
  rw [not_and_or, not_lt, not_not]

namespace Nearness

variable (hn : Nearness near)

include hn

theorem not_past_self (a : K) : ¬Past near a a := fun h => h.2 (hn.refl a)

theorem past_of_past_of_le {a b c : K} (h : Past near a b) (hle : b ≤ c) : Past near a c :=
  ⟨h.1.trans_le hle, fun hnear => h.2 (hn.symm _ _ (hn.convex a b c h.1.le hle (hn.symm _ _ hnear)).1)⟩

theorem past_of_le_of_past {a b c : K} (hle : a ≤ b) (h : Past near b c) : Past near a c :=
  ⟨hle.trans_lt h.1, fun hnear => h.2 (hn.symm _ _ (hn.convex a b c hle h.1.le (hn.symm _ _ hnear)).2)⟩

theorem near_of_le_of_not_past {a b : K} (hle : a ≤ b) (h : ¬Past near a b) : near a b := by
  rcases not_past_iff.1 h with hba | hnear
  · obtain rfl := le_antisymm hle hba
    exact hn.refl _
  · exact hn.symm _ _ hnear

/-- A query for the least point past a given one ends, and what it found separates and covers the set. -/
theorem exists_successors {next : K → Option K} {points : Set K} (hfinite : points.Finite) {a : K}
    (hnext : ∀ b, b = a ∨ b ∈ points → ∀ c, next b = some c ↔ IsLeast {x | x ∈ points ∧ Past near b x} c) :
    ∃ n, (∀ m, n ≤ m → successors next m a = successors next n a) ∧
      (a :: successors next n a).Pairwise (Past near) ∧ (∀ b ∈ successors next n a, b ∈ points) ∧
      ∀ x ∈ points, Past near a x → ∃ b ∈ successors next n a, near b x := by
  -- fewer points lie past the one found
  induction hcard : {x | x ∈ points ∧ Past near a x}.ncard using Nat.strong_induction_on generalizing a with
  | _ card ih =>
    cases hb : next a with
    | none =>
      have hempty : ∀ x ∈ points, ¬Past near a x := by
        intro x hx hpast
        have hrest := hfinite.subset (fun x (hx : x ∈ points ∧ Past near a x) => hx.1)
        have hsome : hrest.toFinset.Nonempty := ⟨x, hrest.mem_toFinset.2 ⟨hx, hpast⟩⟩
        have hleast : IsLeast {x | x ∈ points ∧ Past near a x} (hrest.toFinset.min' hsome) :=
          ⟨hrest.mem_toFinset.1 (Finset.min'_mem _ _), fun y hy => Finset.min'_le _ _ (hrest.mem_toFinset.2 hy)⟩
        cases hb.symm.trans ((hnext a (.inl rfl) _).2 hleast)
      refine ⟨0, fun m _ => successors_of_none hb m, List.pairwise_singleton _ _, ?_, ?_⟩
      · exact fun b hmem => absurd hmem List.not_mem_nil
      · exact fun x hx hpast => absurd hpast (hempty x hx)
    | some b =>
      obtain ⟨⟨hmem, hpast⟩, hleast⟩ := (hnext a (.inl rfl) b).1 hb
      have hsubset : {x | x ∈ points ∧ Past near b x} ⊂ {x | x ∈ points ∧ Past near a x} := by
        refine ⟨fun x hx => ⟨hx.1, hn.past_of_le_of_past hpast.1.le hx.2⟩, fun h => ?_⟩
        exact hn.not_past_self b (h ⟨hmem, hpast⟩).2
      have hfewer := Set.ncard_lt_ncard hsubset (hfinite.subset fun x hx => hx.1)
      obtain ⟨n, hend, hseparate, hfound, hcover⟩ := ih _ (hcard ▸ hfewer)
        (fun c hc => hnext c (.inr (hc.elim (· ▸ hmem) id))) rfl
      refine ⟨n + 1, fun m hm => ?_, ?_, ?_, fun x hx hpastx => ?_⟩
      · obtain ⟨m, rfl⟩ : ∃ k, m = k + 1 := ⟨m - 1, by omega⟩
        rw [successors_of_some hb, successors_of_some hb, hend m (Nat.le_of_succ_le_succ hm)]
      · rw [successors_of_some hb]
        refine List.pairwise_cons.2 ⟨fun c hc => ?_, hseparate⟩
        rcases List.mem_cons.1 hc with rfl | hc
        · exact hpast
        · exact hn.past_of_le_of_past hpast.1.le (List.rel_of_pairwise_cons hseparate hc)
      · rw [successors_of_some hb]
        exact List.forall_mem_cons.2 ⟨hmem, hfound⟩
      · rw [successors_of_some hb]
        by_cases hpastb : Past near b x
        · obtain ⟨c, hc, hnear⟩ := hcover x hx hpastb
          exact ⟨c, List.mem_cons_of_mem _ hc, hnear⟩
        · exact ⟨b, List.mem_cons_self, hn.near_of_le_of_not_past (hleast ⟨hx, hpastx⟩) hpastb⟩

end Nearness

end Rumoca.Lib
