import Mathlib.Algebra.Group.Pi.Basic
import Mathlib.Data.List.Forall2
/-!
# Versions of a store

A program that overwrites its addresses beside one that gives every write an
address of its own. `ρ` says which version each address holds. Values agree
along `ρ`; adjoints, which a reverse sweep gathers, are carried along `ρ` at
the addresses that matter, and vanish where no version is held.
-/

namespace Rumoca.Lib

/-! ## Two runs in step -/

/-- Both fail alike, or both succeed in related results. -/
def Outcomes {ε α β : Type} (R : α → β → Prop) : Except ε α → Except ε β → Prop
  | .ok a, .ok b => R a b
  | .error e, .error e' => e = e'
  | _, _ => False

section
variable {ε α β α' β' γ : Type} {R : α → β → Prop} {x : Except ε α} {y : Except ε β}

theorem Outcomes.bind {S : α' → β' → Prop} {f : α → Except ε α'} {g : β → Except ε β'} (h : Outcomes R x y)
    (hfg : ∀ a b, x = .ok a → y = .ok b → R a b → Outcomes S (f a) (g b)) : Outcomes S (x >>= f) (y >>= g) := by
  cases x with
  | ok a =>
    cases y with
    | ok b => exact hfg a b rfl rfl h
    | error => cases h
  | error e =>
    cases y with
    | ok b => cases h
    | error e' => exact h

theorem Outcomes.mono {S : α → β → Prop} (h : Outcomes R x y) (hRS : ∀ a b, R a b → S a b) : Outcomes S x y := by
  cases x <;> cases y
  · exact h
  · exact h
  · exact h
  · exact hRS _ _ h

theorem Outcomes.map_eq {f : α → γ} {g : β → γ} (h : Outcomes (fun a b => f a = g b) x y) : x.map f = y.map g := by
  cases x with
  | ok a =>
    cases y with
    | ok b => exact congrArg Except.ok h
    | error => cases h
  | error e =>
    cases y with
    | ok b => cases h
    | error e' => exact congrArg Except.error h

theorem Outcomes.of_eq {x y : Except ε α} (h : x = y) : Outcomes Eq x y := by
  subst h
  cases x <;> rfl

end

/-! ## Writes -/

section
variable {ι V : Type} [DecidableEq ι]

def writes (store : ι → V) (targets : List ι) (values : List V) : ι → V :=
  (targets.zip values).foldl (fun store p => Function.update store p.1 p.2) store

@[simp] theorem writes_nil (store : ι → V) (values : List V) : writes store [] values = store := rfl

theorem writes_cons (store : ι → V) (t : ι) (targets : List ι) (v : V) (values : List V) :
    writes store (t :: targets) (v :: values) = writes (Function.update store t v) targets values := rfl

theorem writes_of_notMem {store : ι → V} {targets : List ι} {values : List V} {r : ι} (h : r ∉ targets) :
    writes store targets values r = store r := by
  induction targets generalizing store values with
  | nil => rfl
  | cons t targets ih =>
    rw [List.mem_cons, not_or] at h
    cases values with
    | nil => rfl
    | cons v values => rw [writes_cons, ih h.2, Function.update_of_ne h.1]

theorem writes_cases {targets : List ι} {values : List V} (hnodup : targets.Nodup)
    (hlen : targets.length = values.length) (store : ι → V) (r : ι) :
    (r ∉ targets ∧ writes store targets values r = store r) ∨
      ∃ (i : Nat) (v : V), targets[i]? = some r ∧ values[i]? = some v ∧ writes store targets values r = v := by
  induction targets generalizing store values with
  | nil => exact .inl ⟨by simp, rfl⟩
  | cons t targets ih =>
    obtain ⟨ht, hnodup⟩ := List.nodup_cons.mp hnodup
    cases values with
    | nil => simp at hlen
    | cons v values =>
      rw [writes_cons]
      rcases ih hnodup (by simpa using hlen) (Function.update store t v) with ⟨hr, he⟩ | ⟨i, w, hi, hw, he⟩
      · by_cases hrt : r = t
        · subst hrt
          exact .inr ⟨0, v, by simp, by simp, by rw [he, Function.update_self]⟩
        · exact .inl ⟨by simp [hrt, hr], by rw [he, Function.update_of_ne hrt]⟩
      · exact .inr ⟨i + 1, w, by simpa using hi, by simpa using hw, he⟩

theorem writes_getElem? {targets : List ι} {values : List V} (hnodup : targets.Nodup) {store : ι → V} {i : Nat} {r : ι}
    {v : V} (hr : targets[i]? = some r) (hv : values[i]? = some v) : writes store targets values r = v := by
  induction targets generalizing store values i with
  | nil => simp at hr
  | cons t targets ih =>
    obtain ⟨ht, hnodup⟩ := List.nodup_cons.mp hnodup
    cases values with
    | nil => simp at hv
    | cons w values =>
      rw [writes_cons]
      cases i with
      | zero =>
        simp only [List.getElem?_cons_zero, Option.some.injEq] at hr hv
        subst hr hv
        rw [writes_of_notMem ht, Function.update_self]
      | succ i => exact ih hnodup (by simpa using hr) (by simpa using hv)

/-- A loop that writes in place reads the store it began with, when it reads no address it writes. -/
theorem foldl_writes {α : Type} {xs : List α} {target : α → ι} {value : (ι → V) → α → V}
    (h : ∀ s s' : ι → V, (∀ r, (∀ x ∈ xs, target x ≠ r) → s r = s' r) → ∀ x ∈ xs, value s x = value s' x)
    (store : ι → V) :
    xs.foldl (fun s x => Function.update s (target x) (value s x)) store =
      writes store (xs.map target) (xs.map (value store)) := by
  suffices ∀ ys : List α, (∀ y ∈ ys, y ∈ xs) → ∀ s, (∀ r, (∀ x ∈ xs, target x ≠ r) → s r = store r) →
      ys.foldl (fun s x => Function.update s (target x) (value s x)) s =
        writes s (ys.map target) (ys.map (value store)) from this xs (fun _ h => h) store (fun _ _ => rfl)
  intro ys
  induction ys with
  | nil => intros; rfl
  | cons y ys ih =>
    intro hys s hs
    have hy := hys y (by simp)
    rw [List.foldl_cons, List.map_cons, List.map_cons, writes_cons, h s store hs y hy]
    apply ih (fun z hz => hys z (by simp [hz]))
    intro r hr
    rw [Function.update_of_ne (hr y hy).symm, hs r hr]

end

/-! ## Values along versions -/

section
variable {ι κ V : Type} [DecidableEq ι]

/-- The versions after `targets` take new ones. -/
def rebind (ρ : ι → Option κ) (targets : List ι) (fresh : List κ) : ι → Option κ := writes ρ targets (fresh.map some)

def Injective (ρ : ι → Option κ) : Prop := ∀ r r' v, ρ r = some v → ρ r' = some v → r = r'

/-- No address holds one of `fresh`. -/
def Unheld (ρ : ι → Option κ) (fresh : List κ) : Prop := ∀ r v, ρ r = some v → v ∉ fresh

def AgreesAlong (ρ : ι → Option κ) (store : ι → V) (store' : κ → V) : Prop := ∀ r v, ρ r = some v → store' v = store r

variable {ρ : ι → Option κ} {targets : List ι} {fresh : List κ}

theorem rebind_cases (hnodup : targets.Nodup) (hlen : targets.length = fresh.length) {r : ι} {v : κ}
    (h : rebind ρ targets fresh r = some v) :
    (r ∉ targets ∧ ρ r = some v) ∨ ∃ i : Nat, targets[i]? = some r ∧ fresh[i]? = some v := by
  rcases writes_cases hnodup (by simpa using hlen : targets.length = (fresh.map some).length) ρ r with
    ⟨hr, he⟩ | ⟨i, w, hi, hw, he⟩
  · exact .inl ⟨hr, he ▸ h⟩
  · rw [rebind, he] at h
    subst h
    rw [List.getElem?_map] at hw
    cases hf : fresh[i]? with
    | none => simp [hf] at hw
    | some u =>
      rw [hf, Option.map_some, Option.some.injEq, Option.some.injEq] at hw
      exact .inr ⟨i, hi, hw ▸ hf⟩

theorem rebind_of_notMem {r : ι} (h : r ∉ targets) : rebind ρ targets fresh r = ρ r := writes_of_notMem h

theorem rebind_getElem? (hnodup : targets.Nodup) {i : Nat} {r : ι} {v : κ} (hr : targets[i]? = some r)
    (hv : fresh[i]? = some v) : rebind ρ targets fresh r = some v :=
  writes_getElem? hnodup hr (by simp [hv])

theorem Injective.rebind (hρ : Injective ρ) (hnodup : targets.Nodup) (hlen : targets.length = fresh.length)
    (hfresh : Unheld ρ fresh) (hdistinct : fresh.Nodup) : Injective (rebind ρ targets fresh) := by
  intro r r' v hr hr'
  rcases rebind_cases hnodup hlen hr with ⟨_, hr⟩ | ⟨i, hi, hv⟩ <;>
    rcases rebind_cases hnodup hlen hr' with ⟨_, hr'⟩ | ⟨j, hj, hv'⟩
  · exact hρ r r' v hr hr'
  · exact absurd (List.mem_of_getElem? hv') (hfresh r v hr)
  · exact absurd (List.mem_of_getElem? hv) (hfresh r' v hr')
  · have hij : i = j := (List.getElem?_inj (List.getElem?_eq_some_iff.mp hv).1 hdistinct).mp (hv.trans hv'.symm)
    rw [hij] at hi
    exact Option.some.inj (hi.symm.trans hj)

theorem AgreesAlong.writes [DecidableEq κ] {store : ι → V} {store' : κ → V} (h : AgreesAlong ρ store store') (hnodup : targets.Nodup)
    (hlen : targets.length = fresh.length) (hfresh : Unheld ρ fresh) (hdistinct : fresh.Nodup) {values : List V}
    (hvalues : targets.length = values.length) :
    AgreesAlong (rebind ρ targets fresh) (writes store targets values) (writes store' fresh values) := by
  intro r v hr
  rcases rebind_cases hnodup hlen hr with ⟨hmem, hr⟩ | ⟨i, hi, hv⟩
  · rw [writes_of_notMem hmem, writes_of_notMem (hfresh r v hr), h r v hr]
  · have hlt : i < values.length := hvalues ▸ (List.getElem?_eq_some_iff.mp hi).1
    rw [writes_getElem? hnodup hi (List.getElem?_eq_getElem hlt),
      writes_getElem? hdistinct hv (List.getElem?_eq_getElem hlt)]

end

/-! ## Adjoints along versions -/

section
variable {ι κ K : Type} [DecidableEq ι] [AddCommMonoid K]

def scatter (adj : ι → K) (contributions : List (ι × K)) : ι → K :=
  contributions.foldl (fun adj c => Function.update adj c.1 (adj c.1 + c.2)) adj

/-- Zero the addresses of `targets`. -/
def consume (adj : ι → K) (targets : List ι) (r : ι) : K := if r ∈ targets then 0 else adj r

/-- The version of an active address has its adjoint; what holds no version and what no address holds have none. -/
structure Carries (ρ : ι → Option κ) (active : ι → Prop) (adj : ι → K) (adj' : κ → K) : Prop where
  held : ∀ r v, ρ r = some v → active r → adj' v = adj r
  empty : ∀ r, ρ r = none → adj r = 0
  unused : ∀ v, (∀ r, ρ r ≠ some v) → adj' v = 0

/-- Contributions to addresses, and to their versions, the same ones where the address is active. -/
def Moved (ρ : ι → Option κ) (active : ι → Prop) : List (ι × K) → List (κ × K) → Prop :=
  List.Forall₂ fun c c' => ρ c.1 = some c'.1 ∧ (active c.1 → c.2 = c'.2)

@[simp] theorem scatter_nil (adj : ι → K) : scatter adj [] = adj := rfl

theorem scatter_cons (adj : ι → K) (c : ι × K) (l : List (ι × K)) :
    scatter adj (c :: l) = scatter (Function.update adj c.1 (adj c.1 + c.2)) l := rfl

theorem scatter_append (adj : ι → K) (l l' : List (ι × K)) : scatter adj (l ++ l') = scatter (scatter adj l) l' :=
  List.foldl_append

theorem scatter_zero {adj : ι → K} {l : List (ι × K)} (h : ∀ c ∈ l, c.2 = 0) : scatter adj l = adj := by
  induction l generalizing adj with
  | nil => rfl
  | cons c l ih =>
    rw [scatter_cons, h c (by simp), add_zero, Function.update_eq_self, ih fun d hd => h d (by simp [hd])]

@[simp] theorem consume_nil (adj : ι → K) : consume adj [] = adj := by
  funext r
  simp [consume]

theorem consume_cons (adj : ι → K) (t : ι) (targets : List ι) :
    consume adj (t :: targets) = consume (Function.update adj t 0) targets := by
  funext r
  by_cases h : r = t <;> simp [consume, h]

theorem consume_singleton (adj : ι → K) (t : ι) : consume adj [t] = Function.update adj t 0 := by
  rw [consume_cons, consume_nil]

theorem consume_update_comm {adj : ι → K} {targets : List ι} {r : ι} (h : r ∉ targets) (k : K) :
    consume (Function.update adj r k) targets = Function.update (consume adj targets) r k := by
  funext x
  by_cases hx : x = r
  · subst hx
    simp [consume, h]
  · simp [consume, hx]

theorem consume_scatter_comm {targets : List ι} {l : List (ι × K)} (h : ∀ c ∈ l, c.1 ∉ targets) (adj : ι → K) :
    consume (scatter adj l) targets = scatter (consume adj targets) l := by
  induction l generalizing adj with
  | nil => rfl
  | cons c l ih =>
    have hc := h c (by simp)
    rw [scatter_cons, ih fun d hd => h d (by simp [hd]), consume_update_comm hc, scatter_cons]
    rw [show consume adj targets c.1 = adj c.1 from if_neg hc]

theorem scatter_of_notMem {adj : ι → K} {l : List (ι × K)} {r : ι} (h : ∀ c ∈ l, c.1 ≠ r) : scatter adj l r = adj r := by
  induction l generalizing adj with
  | nil => rfl
  | cons c l ih =>
    rw [scatter_cons, ih fun d hd => h d (by simp [hd]), Function.update_of_ne (h c (by simp)).symm]

/-- Taking and passing on element by element is taking all, then passing on, when nothing is passed to a target. -/
theorem foldl_take_scatter {α : Type} {xs : List α} {target : α → ι} (pass : α → K → List (ι × K))
    (hnodup : (xs.map target).Nodup) (h : ∀ x ∈ xs, ∀ k, ∀ c ∈ pass x k, ∀ y ∈ xs, c.1 ≠ target y) (adj : ι → K) :
    xs.foldl (fun adj x => scatter (Function.update adj (target x) 0) (pass x (adj (target x)))) adj =
      scatter (consume adj (xs.map target)) (xs.flatMap fun x => pass x (adj (target x))) := by
  induction xs generalizing adj with
  | nil => simp
  | cons x xs ih =>
    obtain ⟨hx, hnodup⟩ := List.nodup_cons.mp hnodup
    have hpass : ∀ c ∈ pass x (adj (target x)), c.1 ∉ xs.map target := by
      intro c hc hmem
      obtain ⟨y, hy, he⟩ := List.mem_map.mp hmem
      exact h x (by simp) _ c hc y (by simp [hy]) he.symm
    rw [List.foldl_cons, ih hnodup fun y hy k c hc z hz => h y (by simp [hy]) k c hc z (by simp [hz])]
    rw [List.map_cons, consume_cons, List.flatMap_cons, scatter_append, consume_scatter_comm hpass]
    congr 1
    apply List.flatMap_congr
    intro y hy
    have hyx : target y ≠ target x := fun he => hx (he ▸ List.mem_map_of_mem hy)
    rw [scatter_of_notMem fun c hc => h x (by simp) _ c hc y (by simp [hy]), Function.update_of_ne hyx]

variable {ρ : ι → Option κ} {active active' : ι → Prop} {targets : List ι} {fresh : List κ} {adj : ι → K} {adj' : κ → K}

omit [DecidableEq ι] [AddCommMonoid K] in
theorem moved_flatMap {α : Type} {xs : List α} {f : α → List (ι × K)} {f' : α → List (κ × K)}
    (h : ∀ x ∈ xs, Moved ρ active (f x) (f' x)) : Moved ρ active (xs.flatMap f) (xs.flatMap f') := by
  induction xs with
  | nil => exact .nil
  | cons x xs ih =>
    rw [List.flatMap_cons, List.flatMap_cons]
    exact List.rel_append (h x (by simp)) (ih fun y hy => h y (by simp [hy]))

omit [DecidableEq ι] in
theorem carries_zero (ρ : ι → Option κ) (active : ι → Prop) : Carries ρ active (0 : ι → K) (0 : κ → K) :=
  ⟨fun _ _ _ _ => rfl, fun _ _ => rfl, fun _ _ => rfl⟩

theorem Carries.scatter [DecidableEq κ] {l : List (ι × K)} {l' : List (κ × K)} (h : Carries ρ active adj adj')
    (hρ : Injective ρ) (hmoved : Moved ρ active l l') : Carries ρ active (scatter adj l) (scatter adj' l') := by
  induction hmoved generalizing adj adj' with
  | nil => exact h
  | @cons c c' l l' hc _ ih =>
    obtain ⟨hc, hk⟩ := hc
    rw [scatter_cons, scatter_cons]
    apply ih
    constructor
    · intro r v hr hactive
      by_cases hrc : r = c.1
      · subst hrc
        obtain rfl : c'.1 = v := Option.some.inj (hc.symm.trans hr)
        rw [Function.update_self, Function.update_self, h.held _ _ hc hactive, hk hactive]
      · have hv : v ≠ c'.1 := by
          rintro rfl
          exact hrc (hρ r c.1 _ hr hc)
        rw [Function.update_of_ne hrc, Function.update_of_ne hv, h.held r v hr hactive]
    · intro r hr
      have hrc : r ≠ c.1 := fun he => by rw [he, hc] at hr; cases hr
      rw [Function.update_of_ne hrc, h.empty r hr]
    · intro v hv
      rw [Function.update_of_ne (fun he => hv c.1 (he ▸ hc) : v ≠ c'.1), h.unused v hv]

/-- Going back over a write, the fresh versions give up what their targets do. -/
theorem Carries.consume [DecidableEq κ] (h : Carries (rebind ρ targets fresh) active' adj adj') (hρ : Injective ρ)
    (hnodup : targets.Nodup) (hlen : targets.length = fresh.length) (hfresh : Unheld ρ fresh)
    (hactive : ∀ r, r ∉ targets → active r → active' r) :
    Carries ρ active (consume adj targets) (consume adj' fresh) := by
  constructor
  · intro r v hr hr'
    rw [Lib.consume, Lib.consume, if_neg (hfresh r v hr)]
    split
    · next hmem =>
      apply h.unused
      intro r' hrebound
      rcases rebind_cases hnodup hlen hrebound with ⟨hmem', hr'⟩ | ⟨i, _, hv⟩
      · exact hmem' (hρ r r' v hr hr' ▸ hmem)
      · exact hfresh r v hr (List.mem_of_getElem? hv)
    · next hmem => exact h.held r v (by rw [rebind_of_notMem hmem, hr]) (hactive r hmem hr')
  · intro r hr
    rw [Lib.consume]
    split
    · rfl
    · next hmem => exact h.empty r (by rw [rebind_of_notMem hmem, hr])
  · intro v hv
    rw [Lib.consume]
    split
    · rfl
    · next hmem =>
      apply h.unused
      intro r hr
      rcases rebind_cases hnodup hlen hr with ⟨_, hr⟩ | ⟨i, _, hv'⟩
      · exact hv r hr
      · exact hmem (List.mem_of_getElem? hv')

theorem Carries.map_eq (h : Carries (rebind ρ targets fresh) active adj adj') (hnodup : targets.Nodup)
    (hlen : targets.length = fresh.length) (hactive : ∀ r ∈ targets, active r) : fresh.map adj' = targets.map adj := by
  apply List.ext_getElem?
  intro i
  rw [List.getElem?_map, List.getElem?_map]
  by_cases hi : i < targets.length
  · have ht := List.getElem?_eq_getElem hi
    have hf := List.getElem?_eq_getElem (hlen ▸ hi : i < fresh.length)
    rw [ht, hf, Option.map_some, Option.map_some, h.held _ _ (rebind_getElem? hnodup ht hf) (hactive _ (List.getElem_mem hi))]
  · rw [List.getElem?_eq_none (Nat.le_of_not_lt hi), List.getElem?_eq_none (hlen ▸ Nat.le_of_not_lt hi)]
    rfl

end

end Rumoca.Lib
