import Mathlib.Data.Set.Basic
import Mathlib.Tactic
/-!
# Orders of strongly connected components

`ComponentOrder E cs`: the lists `cs` are components of the relation `E`,
each edge out of a component ends in the same or in an earlier one, and no
node occurs twice. `ComponentOrder.snoc` is how an algorithm extends such an
order; `IsComponent.map` carries a component from the nodes of a set to the
whole relation when every other node is a sink.
-/

namespace Rumoca.Lib

open Relation

variable {α : Type*}

/-- `y` can be reached from `x`. -/
abbrev Reaches (E : α → α → Prop) (x y : α) : Prop := ReflTransGen E x y

/-- `x` and `y` reach each other. -/
def Mutual (E : α → α → Prop) (x y : α) : Prop := Reaches E x y ∧ Reaches E y x

/-- `c` holds, with any of its nodes, exactly the nodes mutually reachable with it. -/
def IsComponent (E : α → α → Prop) (c : List α) : Prop :=
  c ≠ [] ∧ ∀ x ∈ c, ∀ y, y ∈ c ↔ Mutual E x y

/-- A duplicate-free list of components, every edge going to the same or to an earlier one. -/
structure ComponentOrder (E : α → α → Prop) (cs : List (List α)) : Prop where
  nodup : cs.flatten.Nodup
  component : ∀ c ∈ cs, IsComponent E c
  closed : ∀ pre c post, cs = pre ++ c :: post → ∀ x ∈ c, ∀ y, E x y → y ∈ c ∨ y ∈ pre.flatten

variable {E : α → α → Prop}

theorem closed_reaches {P : α → Prop} (hP : ∀ x y, P x → E x y → P y) {x y : α} (hx : P x)
    (h : Reaches E x y) : P y := by
  induction h with
  | refl => exact hx
  | tail _ he ih => exact hP _ _ ih he

namespace ComponentOrder

theorem nil : ComponentOrder E [] :=
  ⟨by simp, by simp, fun pre c post h => by simp at h⟩

variable {cs : List (List α)}

theorem flatten_closed (h : ComponentOrder E cs) {x y : α} (hx : x ∈ cs.flatten) (he : E x y) :
    y ∈ cs.flatten := by
  obtain ⟨c, hc, hxc⟩ := List.mem_flatten.1 hx
  obtain ⟨pre, post, rfl⟩ := List.append_of_mem hc
  rcases h.closed pre c post rfl x hxc y he with hy | hy
  · simp [hy]
  · simp only [List.flatten_append, List.mem_append]
    exact .inl hy

/-- A new component: mutually reachable, closed up to the earlier ones. -/
theorem snoc (h : ComponentOrder E cs) {c : List α} (hne : c ≠ []) (hnd : c.Nodup)
    (hdis : ∀ x ∈ c, x ∉ cs.flatten) (hmut : ∀ x ∈ c, ∀ y ∈ c, Reaches E x y)
    (hcl : ∀ x ∈ c, ∀ y, E x y → y ∈ c ∨ y ∈ cs.flatten) : ComponentOrder E (cs ++ [c]) := by
  refine ⟨?_, ?_, ?_⟩
  · rw [List.flatten_append, List.nodup_append]
    exact ⟨h.nodup, by simpa using hnd, fun a ha b hb hab => hdis b (by simpa using hb) (hab ▸ ha)⟩
  · intro d hd
    rcases List.mem_append.1 hd with hd | hd
    · exact h.component d hd
    · obtain rfl := List.mem_singleton.1 hd
      refine ⟨hne, fun x hx y => ⟨fun hy => ⟨hmut x hx y hy, hmut y hy x hx⟩, fun hm => ?_⟩⟩
      have hor : y ∈ d ∨ y ∈ cs.flatten := by
        refine closed_reaches (P := fun z => z ∈ d ∨ z ∈ cs.flatten) ?_ (.inl hx) hm.1
        rintro a b (ha | ha) he
        · exact hcl a ha b he
        · exact .inr (h.flatten_closed ha he)
      rcases hor with hy | hy
      · exact hy
      · have hx' : x ∈ cs.flatten :=
          closed_reaches (P := fun z => z ∈ cs.flatten) (fun a b ha he => h.flatten_closed ha he) hy hm.2
        exact absurd hx' (hdis x hx)
  · intro pre d post heq x hx y he
    rcases List.eq_nil_or_concat post with rfl | ⟨post', e, rfl⟩
    · obtain ⟨rfl, hcd⟩ := List.append_inj' heq rfl
      obtain rfl := List.singleton_inj.1 hcd
      exact hcl x hx y he
    · have hcs : cs = pre ++ d :: post' := by
        have : cs ++ [c] = (pre ++ d :: post') ++ [e] := by simpa using heq
        exact (List.append_inj' this rfl).1
      exact h.closed pre d post' hcs x hx y he

end ComponentOrder

def Earlier (E : α → α → Prop) (cs : List (List α)) : Prop :=
  ∀ (i : Nat) (c : List α), cs[i]? = some c → ∀ x ∈ c, ∀ y, E x y → ∃ j ≤ i, ∃ d : List α, cs[j]? = some d ∧ y ∈ d

theorem ComponentOrder.earlier {cs : List (List α)} (h : ComponentOrder E cs) : Earlier E cs := by
  intro i c hc x hx y he
  obtain ⟨hi, rfl⟩ := List.getElem?_eq_some_iff.1 hc
  have hsplit : cs = cs.take i ++ cs[i] :: cs.drop (i + 1) := by simp
  rcases h.closed _ _ _ hsplit x hx y he with hy | hy
  · exact ⟨i, le_refl i, _, hc, hy⟩
  · obtain ⟨d, hd, hyd⟩ := List.mem_flatten.1 hy
    obtain ⟨j, hj⟩ := List.mem_iff_getElem?.1 hd
    rw [List.getElem?_take] at hj
    split at hj
    · exact ⟨j, by omega, d, hj, hyd⟩
    · cases hj

theorem Earlier.append {sinks cs : List (List α)} (hs : ∀ x ∈ sinks.flatten, ∀ y, ¬ E x y)
    (h : ∀ (i : Nat) (c : List α), cs[i]? = some c → ∀ x ∈ c, ∀ y, E x y →
      y ∈ sinks.flatten ∨ ∃ j ≤ i, ∃ d : List α, cs[j]? = some d ∧ y ∈ d) : Earlier E (sinks ++ cs) := by
  intro i c hc x hx y he
  by_cases hi : i < sinks.length
  · rw [List.getElem?_append_left hi] at hc
    exact absurd he (hs x (List.mem_flatten.2 ⟨c, List.mem_of_getElem? hc, hx⟩) y)
  · rw [List.getElem?_append_right (by omega)] at hc
    rcases h _ c hc x hx y he with hy | ⟨j, hj, d, hd, hy⟩
    · obtain ⟨d, hd, hyd⟩ := List.mem_flatten.1 hy
      obtain ⟨j, hj⟩ := List.mem_iff_getElem?.1 hd
      have hjlt : j < sinks.length := (List.getElem?_eq_some_iff.1 hj).1
      exact ⟨j, by omega, d, by rw [List.getElem?_append_left hjlt, hj], hyd⟩
    · refine ⟨sinks.length + j, by omega, d, ?_, hy⟩
      rw [List.getElem?_append_right (by omega)]
      simpa using hd

/-! ## From a subset of the nodes to the whole relation -/

/-- `E` between the images of `f`. -/
def Pull {β : Type*} (E : α → α → Prop) (f : β → α) (x y : β) : Prop := E (f x) (f y)

section Restrict
variable {β : Type*} {f : β → α}

theorem reaches_of_pull {x y : β} (h : Reaches (Pull E f) x y) : Reaches E (f x) (f y) := by
  induction h with
  | refl => exact .refl
  | tail _ he ih => exact ih.tail he

/-- When every node outside the image of `f` is a sink, a path that ends in
the image stays in it. -/
theorem pull_of_reaches (hf : Function.Injective f) (hsink : ∀ a b, a ∉ Set.range f → ¬ E a b)
    {x y : β} (h : Reaches E (f x) (f y)) : Reaches (Pull E f) x y := by
  have key : ∀ b, Reaches E (f x) b → ∀ y, b = f y → Reaches (Pull E f) x y := by
    intro b hb
    induction hb with
    | refl => intro y hy; rw [hf hy]
    | @tail b c _ he ih =>
      rintro y rfl
      by_cases hbr : b ∈ Set.range f
      · obtain ⟨z, rfl⟩ := hbr
        exact (ih z rfl).tail he
      · exact absurd he (hsink b _ hbr)
  exact key _ h y rfl

theorem mutual_pull_iff (hf : Function.Injective f) (hsink : ∀ a b, a ∉ Set.range f → ¬ E a b) (x y : β) :
    Mutual (Pull E f) x y ↔ Mutual E (f x) (f y) :=
  ⟨fun h => ⟨reaches_of_pull h.1, reaches_of_pull h.2⟩,
    fun h => ⟨pull_of_reaches hf hsink h.1, pull_of_reaches hf hsink h.2⟩⟩

theorem IsComponent.map (hf : Function.Injective f) (hsink : ∀ a b, a ∉ Set.range f → ¬ E a b)
    {c : List β} (h : IsComponent (Pull E f) c) : IsComponent E (c.map f) := by
  refine ⟨by simp [h.1], fun a ha b => ?_⟩
  obtain ⟨x, hx, rfl⟩ := List.mem_map.1 ha
  constructor
  · intro hb
    obtain ⟨y, hy, rfl⟩ := List.mem_map.1 hb
    exact (mutual_pull_iff hf hsink x y).1 ((h.2 x hx y).1 hy)
  · intro hm
    by_cases hbr : b ∈ Set.range f
    · obtain ⟨y, rfl⟩ := hbr
      exact List.mem_map.2 ⟨y, (h.2 x hx y).2 ((mutual_pull_iff hf hsink x y).2 hm), rfl⟩
    · -- `b` reaches `f x`, but a node outside the image reaches only itself
      have hself : ∀ z, Reaches E b z → z = b := by
        intro z hz
        rcases hz.cases_head with rfl | ⟨w, hw, _⟩
        · rfl
        · exact absurd hw (hsink b w hbr)
      exact absurd ⟨x, hself _ hm.2⟩ hbr

end Restrict

end Rumoca.Lib
