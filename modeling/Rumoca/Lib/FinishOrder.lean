import Rumoca.Lib.Components
/-!
# Finishing orders of a depth-first search

`FinishOrder E finished`: before each node stand first the nodes that were
finished when it was entered, which have no edge to it or to what follows
them, and then nodes it reaches. `DepthFirst` is the invariant of a search
that yields such an order; `FinishOrder.back` is what a second search, on the
reversed edges and from the last node finished, uses of it.
-/

namespace Rumoca.Lib

variable {α : Type*}

def FinishOrder (E : α → α → Prop) (finished : List α) : Prop :=
  ∀ pre s post, finished = pre ++ s :: post →
    ∃ before below, pre = before ++ below ∧ (∀ x ∈ below, Reaches E s x) ∧
      ∀ x ∈ before, ∀ y, E x y → y ≠ s ∧ y ∉ below

/-- What is known of an open node: `before` was finished when it was entered above `under`. -/
def Entered (E : α → α → Prop) (finished : List α) (s : α) (under : List α) : Prop :=
  ∃ before below, finished = before ++ below ∧ (∀ x ∈ below, Reaches E s x) ∧
    ∀ x ∈ before, ∀ y, E x y → y ∈ before ∨ y ∈ under

/-- A depth-first search under way: `stack` holds the open nodes, the last one entered first. -/
structure DepthFirst (E : α → α → Prop) (finished stack : List α) : Prop where
  nodup : (finished ++ stack).Nodup
  path : stack.Pairwise fun above under => Reaches E under above
  closed : ∀ x ∈ finished, ∀ y, E x y → y ∈ finished ∨ y ∈ stack
  entered : ∀ above s under, stack = above ++ s :: under → Entered E finished s under
  order : FinishOrder E finished

variable {E : α → α → Prop}

namespace DepthFirst

variable {finished stack : List α}

theorem nil : DepthFirst E ([] : List α) [] where
  nodup := List.nodup_nil
  path := List.Pairwise.nil
  closed := by simp
  entered above s under h := by simp at h
  order pre s post h := by simp at h

/-- A node not seen yet is entered from the top of the stack, or as a new root. -/
theorem push (h : DepthFirst E finished stack) {s : α} (hs : s ∉ finished ++ stack)
    (hedge : ∀ top ∈ stack.head?, E top s) : DepthFirst E finished (s :: stack) where
  nodup := by
    rw [List.nodup_middle, List.nodup_cons]
    exact ⟨hs, h.nodup⟩
  path := by
    refine List.pairwise_cons.2 ⟨fun under hunder => ?_, h.path⟩
    cases stack with
    | nil => cases hunder
    | cons top rest =>
      have hlast : E top s := hedge top rfl
      rcases List.mem_cons.1 hunder with rfl | hunder
      · exact .single hlast
      · exact (List.rel_of_pairwise_cons h.path hunder).tail hlast
  closed x hx y he := by
    rcases h.closed x hx y he with hy | hy
    · exact .inl hy
    · exact .inr (List.mem_cons_of_mem s hy)
  entered above t under heq := by
    cases above with
    | nil =>
      obtain ⟨rfl, rfl⟩ := List.cons.inj heq
      exact ⟨finished, [], (List.append_nil _).symm, by simp, h.closed⟩
    | cons a above => exact h.entered above t under (List.cons.inj heq).2
  order := h.order

theorem pop {top : α} (h : DepthFirst E finished (top :: stack))
    (hseen : ∀ y, E top y → y ∈ finished ∨ y ∈ top :: stack) : DepthFirst E (finished ++ [top]) stack where
  nodup := by
    have := h.nodup
    rwa [List.append_assoc]
  path := (List.pairwise_cons.1 h.path).2
  closed x hx y he := by
    have hy : y ∈ finished ∨ y ∈ top :: stack := by
      rcases List.mem_append.1 hx with hx | hx
      · exact h.closed x hx y he
      · exact hseen y (List.mem_singleton.1 hx ▸ he)
    rcases hy with hy | hy
    · exact .inl (List.mem_append_left _ hy)
    · rcases List.mem_cons.1 hy with rfl | hy
      · exact .inl (by simp)
      · exact .inr hy
  entered above s under heq := by
    obtain ⟨before, below, hsplit, hbelow, hbefore⟩ := h.entered (top :: above) s under (by rw [heq]; rfl)
    refine ⟨before, below ++ [top], by rw [hsplit, List.append_assoc], fun x hx => ?_, hbefore⟩
    rcases List.mem_append.1 hx with hx | hx
    · exact hbelow x hx
    · rw [List.mem_singleton.1 hx]
      exact (List.pairwise_cons.1 h.path).1 s (by simp [heq])
  order pre s post heq := by
    rcases List.eq_nil_or_concat post with rfl | ⟨post', t, rfl⟩
    · obtain ⟨rfl, hs⟩ := List.append_inj' heq rfl
      obtain rfl := List.singleton_inj.1 hs
      obtain ⟨before, below, rfl, hbelow, hbefore⟩ := h.entered [] top stack rfl
      refine ⟨before, below, rfl, hbelow, fun x hx y he => ?_⟩
      have hnd := h.nodup
      rw [List.append_assoc, List.nodup_append, List.nodup_append] at hnd
      obtain ⟨-, ⟨-, hstack, hdis₂⟩, hdis₁⟩ := hnd
      rcases hbefore x hx y he with hy | hy
      · exact ⟨fun hyt => hdis₁ y hy top (by simp) hyt, fun hyb => hdis₁ y hy y (by simp [hyb]) rfl⟩
      · exact ⟨fun hyt => (List.nodup_cons.1 hstack).1 (hyt ▸ hy), fun hyb => hdis₂ y hyb y (by simp [hy]) rfl⟩
    · have : finished = pre ++ s :: post' := by
        have : finished ++ [top] = (pre ++ s :: post') ++ [t] := by simpa using heq
        exact (List.append_inj' this rfl).1
      exact h.order pre s post' this

end DepthFirst

/-- When the nodes finished after `s` were seen and the seen nodes hold all that
reach them, an unseen node that reaches `s` is reached from `s`. -/
theorem FinishOrder.back {pre post : List α} {s : α} (h : FinishOrder E (pre ++ s :: post))
    (hnd : (pre ++ s :: post).Nodup) (hclosed : ∀ x ∈ pre ++ s :: post, ∀ y, E x y → y ∈ pre ++ s :: post)
    (Seen : α → Prop) (hpost : ∀ x ∈ post, Seen x) (hseen : ∀ x y, Seen y → E x y → Seen x) {x : α}
    (hmem : x ∈ pre ++ s :: post) (hx : ¬ Seen x) (hr : Reaches E x s) : Reaches E s x := by
  obtain ⟨before, below, rfl, hbelow, hbefore⟩ := h pre s post rfl
  have hplace : ∀ y, ¬ Seen y → y ∈ before ++ below ++ s :: post → y ∈ before ∨ y = s ∨ y ∈ below := by
    intro y hy hmem
    rcases List.mem_append.1 hmem with hmem | hmem
    · exact (List.mem_append.1 hmem).imp id .inr
    · rcases List.mem_cons.1 hmem with rfl | hmem
      · exact .inr (.inl rfl)
      · exact absurd (hpost y hmem) hy
  -- a path from `before` that stays unseen never leaves it
  have hstay : x ∈ before → ∀ y, Reaches E x y → ¬ Seen y → y ∈ before := by
    intro hxb y hxy
    induction hxy with
    | refl => exact fun _ => hxb
    | @tail y z hxy hyz ih =>
      intro hz
      have hyb := ih fun hy => hx (closed_reaches (E := flip E) (fun a b ha he => hseen b a ha he) hy
        (Relation.reflTransGen_swap.2 hxy))
      have hzmem := hclosed y (by simp [hyb]) z hyz
      rcases hplace z hz hzmem with hzb | hzs | hzb
      · exact hzb
      · exact absurd hzs (hbefore y hyb z hyz).1
      · exact absurd hzb (hbefore y hyb z hyz).2
  rcases hplace x hx hmem with hxb | rfl | hxb
  · have hs : ¬ Seen s := fun hs => hx (closed_reaches (E := flip E) (fun a b ha he => hseen b a ha he) hs
      (Relation.reflTransGen_swap.2 hr))
    have hsb := hstay hxb s hr hs
    rw [List.append_assoc, List.nodup_append] at hnd
    exact absurd rfl (hnd.2.2 s hsb s (by simp))
  · exact .refl
  · exact hbelow x hxb

theorem ComponentOrder.reverse {cs : List (List α)} (h : ComponentOrder (flip E) cs)
    (hall : ∀ x ∈ cs.flatten, ∀ y, E x y → y ∈ cs.flatten) : ComponentOrder E cs.reverse := by
  have hnd : cs.reverse.flatten.Nodup := by
    have hperm : cs.reverse.flatten.Perm cs.flatten := (List.reverse_perm cs).flatten
    exact hperm.nodup_iff.2 h.nodup
  refine ⟨hnd, fun c hc => ⟨(h.component c (List.mem_reverse.1 hc)).1, fun x hx y => ?_⟩, ?_⟩
  · have hswap : ∀ a b, Reaches (flip E) a b ↔ Reaches E b a := fun _ _ => Relation.reflTransGen_swap
    rw [(h.component c (List.mem_reverse.1 hc)).2 x hx y, Mutual, Mutual, hswap, hswap, and_comm]
  · intro pre c post heq x hx y he
    have hcs : cs = post.reverse ++ c :: pre.reverse := by
      rw [← List.reverse_reverse cs, heq]
      simp
    have hy : y ∈ cs.flatten := hall x (List.mem_flatten.2 ⟨c, by simp [hcs], hx⟩) y he
    obtain ⟨d, hd, hyd⟩ := List.mem_flatten.1 hy
    rw [hcs, List.mem_append, List.mem_cons, List.mem_reverse, List.mem_reverse] at hd
    rcases hd with hd | rfl | hd
    · -- the reversed edge would lead from `d` to the later `c`
      obtain ⟨p, q, hpq⟩ := List.append_of_mem (List.mem_reverse.2 hd)
      have hcd := h.closed p d (q ++ c :: pre.reverse) (by rw [hcs, hpq]; simp) y hyd x he
      have hx' : x ∈ post.reverse.flatten := by
        rw [hpq, List.flatten_append, List.flatten_cons]
        rcases hcd with hxd | hxp
        · simp [hxd]
        · exact List.mem_append_left _ hxp
      have hnd' := h.nodup
      rw [hcs, List.flatten_append, List.nodup_append] at hnd'
      exact absurd rfl (hnd'.2.2 x hx' x (by simp [hx]))
    · exact .inl hyd
    · exact .inr (List.mem_flatten.2 ⟨d, hd, hyd⟩)

end Rumoca.Lib
