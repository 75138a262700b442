import Mathlib.Data.List.Count
import Rumoca.Lib.Loop
/-!
# Flags swept until nothing changes

A vector of flags and a test that reads the flags set so far. A sweep visits
the indices in order and gives every flag that passes the test its new value;
sweeps repeat until one changes nothing. `settleFlags_inv` is the rule for what
holds of the flags, `settleFlags_quiet` says that no flag passes the test at the
end.
-/

namespace Rumoca.Lib

/-- Repeat a pass, which says whether it changed anything, until it did not. -/
def settle {σ : Type} (pass : σ → σ × Bool) : (fuel : Nat) → σ → σ
  | 0, s => s
  | n + 1, s => if (pass s).2 then settle pass n (pass s).1 else (pass s).1

theorem settle_inv {σ : Type} {pass : σ → σ × Bool} (Inv : σ → Prop) (hpass : ∀ s, Inv s → Inv (pass s).1) :
    ∀ (n : Nat) (s : σ), Inv s → Inv (settle pass n s) := by
  intro n
  induction n with
  | zero => exact fun s hs => hs
  | succ n ih =>
    intro s hs
    rw [settle]
    split
    · exact ih _ (hpass s hs)
    · exact hpass s hs

/-- With fuel for a measure that every changing pass lowers, the last pass changes nothing. -/
theorem settle_quiet {σ : Type} {pass : σ → σ × Bool} (Inv : σ → Prop) (meas : σ → Nat)
    (hpass : ∀ s, Inv s → Inv (pass s).1 ∧ ((pass s).2 = true → meas (pass s).1 < meas s)) :
    ∀ (n : Nat) (s : σ), Inv s → meas s < n → ∃ s', Inv s' ∧ (pass s').2 = false ∧ settle pass n s = (pass s').1 := by
  intro n
  induction n with
  | zero => intro s _ hs; omega
  | succ n ih =>
    intro s hinv hs
    rw [settle]
    split
    · next h => exact ih _ (hpass s hinv).1 (by have := (hpass s hinv).2 h; omega)
    · next h => exact ⟨s, hinv, by simpa using h, rfl⟩

theorem settle_rel {σ : Type} {pass pass' : σ → σ × Bool} (Rel : σ → σ → Prop)
    (hpass : ∀ s s', Rel s s' → Rel (pass s).1 (pass' s').1 ∧ (pass s).2 = (pass' s').2) :
    ∀ (n : Nat) (s s' : σ), Rel s s' → Rel (settle pass n s) (settle pass' n s') := by
  intro n
  induction n with
  | zero => exact fun s s' h => h
  | succ n ih =>
    intro s s' h
    obtain ⟨hrel, hchanged⟩ := hpass s s' h
    rw [settle, settle, hchanged]
    split
    · exact ih _ _ hrel
    · exact hrel

section Sweep

variable (value : Bool) (test : List Bool → Nat → Bool)

def visit (s : List Bool × Bool) (i : Nat) : List Bool × Bool :=
  if s.1[i]? = some (!value) ∧ test s.1 i = true then (s.1.set i value, true) else s

def sweep (flags : List Bool) : List Bool × Bool := (List.range flags.length).foldl (visit value test) (flags, false)

def settleFlags (flags : List Bool) : List Bool := settle (sweep value test) (flags.length + 1) flags

variable {value} {test}

theorem visit_inv {Inv : List Bool → Prop}
    (hset : ∀ flags i, Inv flags → test flags i = true → Inv (flags.set i value)) {s : List Bool × Bool}
    (hs : Inv s.1) (i : Nat) : Inv (visit value test s i).1 := by
  unfold visit
  split
  · next h => exact hset _ _ hs h.2
  · exact hs

theorem sweep_inv {Inv : List Bool → Prop}
    (hset : ∀ flags i, Inv flags → test flags i = true → Inv (flags.set i value)) {flags : List Bool}
    (hs : Inv flags) : Inv (sweep value test flags).1 :=
  foldl_inv (fun _ (s : List Bool × Bool) => Inv s.1) (fun _ i _ _ _ hs => visit_inv hset hs i) hs

theorem settleFlags_inv (Inv : List Bool → Prop)
    (hset : ∀ flags i, Inv flags → test flags i = true → Inv (flags.set i value)) {flags : List Bool}
    (hs : Inv flags) : Inv (settleFlags value test flags) :=
  settle_inv Inv (fun _ => sweep_inv hset) _ _ hs

/-! ## The end of the sweeps -/

/-- What a sweep has done to the flags after some of the indices. -/
structure Swept (value : Bool) (test : List Bool → Nat → Bool) (flags : List Bool) (visited : List Nat)
    (s : List Bool × Bool) : Prop where
  count_le : s.1.count (!value) ≤ flags.count (!value)
  count_lt : s.2 = true → s.1.count (!value) < flags.count (!value)
  quiet : s.2 = false → s.1 = flags ∧ ∀ i ∈ visited, flags[i]? = some (!value) → test flags i = false

theorem count_set_lt {flags : List Bool} {i : Nat} (h : flags[i]? = some (!value)) :
    (flags.set i value).count (!value) < flags.count (!value) := by
  obtain ⟨hi, hv⟩ := List.getElem?_eq_some_iff.1 h
  have hmem : 0 < flags.count (!value) := List.count_pos_iff.2 (hv ▸ List.getElem_mem hi)
  have hne : (value == !value) = false := by cases value <;> rfl
  rw [List.count_set hi, hv, beq_self_eq_true, if_pos rfl, hne, if_neg Bool.false_ne_true]
  omega

theorem visit_swept {flags : List Bool} {visited : List Nat} {s : List Bool × Bool}
    (hs : Swept value test flags visited s) (i : Nat) :
    Swept value test flags (visited ++ [i]) (visit value test s i) := by
  unfold visit
  split
  · next h =>
    have hlt : (s.1.set i value).count (!value) < flags.count (!value) :=
      Nat.lt_of_lt_of_le (count_set_lt h.1) hs.count_le
    exact ⟨Nat.le_of_lt hlt, fun _ => hlt, fun h => by cases h⟩
  · next h =>
    refine ⟨hs.count_le, hs.count_lt, fun hq => ⟨(hs.quiet hq).1, fun j hj hf => ?_⟩⟩
    rcases List.mem_append.1 hj with hj | hj
    · exact (hs.quiet hq).2 j hj hf
    · rw [List.mem_singleton.1 hj] at hf ⊢
      rw [(hs.quiet hq).1, not_and] at h
      exact Bool.eq_false_iff.2 (h hf)

theorem sweep_swept (flags : List Bool) :
    Swept value test flags (List.range flags.length) (sweep value test flags) :=
  foldl_inv (Swept value test flags) (fun _ i _ _ _ hs => visit_swept hs i)
    ⟨Nat.le_refl _, (by simp), fun _ => ⟨rfl, by simp⟩⟩

theorem settleFlags_quiet (flags : List Bool) (i : Nat)
    (hi : (settleFlags value test flags)[i]? = some (!value)) : test (settleFlags value test flags) i = false := by
  obtain ⟨s, -, hq, he⟩ : ∃ s, True ∧ (sweep value test s).2 = false ∧
      settle (sweep value test) (flags.length + 1) flags = (sweep value test s).1 :=
    settle_quiet (fun _ => True) (fun fs => fs.count (!value)) (fun fs _ => ⟨trivial, (sweep_swept fs).count_lt⟩) _ flags
      trivial (Nat.lt_succ_of_le List.count_le_length)
  have hs : settleFlags value test flags = s := he.trans ((sweep_swept s).quiet hq).1
  rw [hs] at hi ⊢
  exact ((sweep_swept s).quiet hq).2 i (List.mem_range.2 (List.getElem?_eq_some_iff.1 hi).1) hi

end Sweep

end Rumoca.Lib
