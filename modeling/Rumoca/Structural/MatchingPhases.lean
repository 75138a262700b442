import Rumoca.Structural.MatchingGrowth
/-!
# A phase makes progress

Layers ascend along the stack of a search, so its path flips into a larger
matching however the matching has changed since the layering. As long as it
has not changed, a retired equation has seen no free unknown and every owner
one layer up retired. A phase in which no search succeeds would therefore
retire every layered equation, and its layering reached no free unknown.
-/

namespace Rumoca.Structural

open Rumoca.Lib Matching

section
variable {rows : IncidenceRows} {nEq : Nat} {M : Matching}

/-! ## Flipping pairs -/

def flipEdges (edges : List (Nat × Nat)) (M : Matching) : Matching :=
  edges.foldl (fun matching (eq, var) => matching.pair eq var) M

theorem flipEdges_matchEq {edges : List (Nat × Nat)} (hnd : (edges.map Prod.fst).Nodup) (e v : Nat) :
    (flipEdges edges M).matchEq e = some v ↔
      (e, v) ∈ edges ∨ (e ∉ edges.map Prod.fst ∧ M.matchEq e = some v) := by
  induction edges generalizing M with
  | nil => simp [flipEdges]
  | cons edge edges ih =>
    obtain ⟨a, b⟩ := edge
    obtain ⟨hnot, hnd⟩ := List.nodup_cons.1 hnd
    have hfold : flipEdges ((a, b) :: edges) M = flipEdges edges (M.pair a b) := rfl
    have hfst : ∀ v, (e, v) ∈ edges → e ∈ edges.map Prod.fst := fun v h => List.mem_map_of_mem h
    rw [hfold, ih hnd, pair_matchEq, List.map_cons, List.mem_cons, List.mem_cons, Prod.mk.injEq, not_or]
    grind

theorem flipEdges_matchVar {edges : List (Nat × Nat)} (hnd : (edges.map Prod.snd).Nodup) (e v : Nat) :
    (flipEdges edges M).matchVar v = some e ↔
      (e, v) ∈ edges ∨ (v ∉ edges.map Prod.snd ∧ M.matchVar v = some e) := by
  induction edges generalizing M with
  | nil => simp [flipEdges]
  | cons edge edges ih =>
    obtain ⟨a, b⟩ := edge
    obtain ⟨hnot, hnd⟩ := List.nodup_cons.1 hnd
    have hfold : flipEdges ((a, b) :: edges) M = flipEdges edges (M.pair a b) := rfl
    have hsnd : ∀ e, (e, v) ∈ edges → v ∈ edges.map Prod.snd := fun e h => List.mem_map_of_mem h
    rw [hfold, ih hnd, pair_matchVar, List.map_cons, List.mem_cons, List.mem_cons, Prod.mk.injEq, not_or]
    grind

/-- Pairs that take over what their equations held and whose unknowns they take over from each other. -/
theorem Matching.Valid.flip (h : M.Valid rows nEq) {edges : List (Nat × Nat)} (heqs : (edges.map Prod.fst).Nodup)
    (hvars : (edges.map Prod.snd).Nodup) (hedge : ∀ p ∈ edges, p.2 ∈ rows.row p.1 ∧ p.1 < nEq)
    (howner : ∀ p ∈ edges, ∀ e, M.matchVar p.2 = some e → e ∈ edges.map Prod.fst)
    (hmatch : ∀ p ∈ edges, ∀ v, M.matchEq p.1 = some v → v ∈ edges.map Prod.snd) :
    (flipEdges edges M).Valid rows nEq := by
  refine ⟨fun e v hev => ?_, fun e v hev => ?_, fun e v hev => ?_⟩
  · rcases (flipEdges_matchEq heqs e v).1 hev with hmem | ⟨hnot, hold⟩
    · exact (flipEdges_matchVar hvars e v).2 (.inl hmem)
    · refine (flipEdges_matchVar hvars e v).2 (.inr ⟨fun hv => ?_, h.var_of_eq e v hold⟩)
      obtain ⟨p, hp, rfl⟩ := List.mem_map.1 hv
      exact hnot (howner p hp e (h.var_of_eq e p.2 hold))
  · rcases (flipEdges_matchVar hvars e v).1 hev with hmem | ⟨hnot, hold⟩
    · exact (flipEdges_matchEq heqs e v).2 (.inl hmem)
    · refine (flipEdges_matchEq heqs e v).2 (.inr ⟨fun he => ?_, h.eq_of_var e v hold⟩)
      obtain ⟨p, hp, rfl⟩ := List.mem_map.1 he
      exact hnot (hmatch p hp v (h.eq_of_var p.1 v hold))
  · rcases (flipEdges_matchEq heqs e v).1 hev with hmem | ⟨-, hold⟩
    · exact hedge (e, v) hmem
    · exact h.edge e v hold

/-! ## The path of a search -/

/-- `eq` is on top of the frames `below`: the unknown each frame visited last
is owned by the equation above it, one layer up, and the lowest equation is `start`. -/
inductive LayerPath (rows : IncidenceRows) (matchVar layer : Nat → Option Nat) (start : Nat) :
    (eq : Nat) → (below : List (Nat × Nat)) → Prop where
  | base : LayerPath rows matchVar layer start start []
  | step {eq var under cursor k : Nat} {below : List (Nat × Nat)} (hvar : (rows.row under)[cursor - 1]? = some var)
      (howner : matchVar var = some eq) (hlayer : layer under = some k) (hnext : layer eq = some (k + 1))
      (hbelow : LayerPath rows matchVar layer start under below) :
      LayerPath rows matchVar layer start eq ((under, cursor) :: below)

def frameEdge (rows : IncidenceRows) (frame : Nat × Nat) : Nat × Nat :=
  (frame.1, ((rows.row frame.1)[frame.2 - 1]?).getD 0)

section
variable {matchVar layer layer' : Nat → Option Nat} {start eq k : Nat} {below : List (Nat × Nat)}

theorem LayerPath.layer_lt (h : LayerPath rows matchVar layer start eq below) (hk : layer eq = some k) :
    ∀ f ∈ below, ∃ j < k, layer f.1 = some j := by
  induction h generalizing k with
  | base => simp
  | @step eq var under cursor j below hvar howner hlayer hnext hbelow ih =>
    rw [hnext, Option.some.injEq] at hk
    intro f hf
    rcases List.mem_cons.1 hf with rfl | hf
    · exact ⟨j, by omega, hlayer⟩
    · obtain ⟨i, hi, hfi⟩ := ih hlayer f hf
      exact ⟨i, by omega, hfi⟩

theorem LayerPath.not_mem (h : LayerPath rows matchVar layer start eq below) (hk : layer eq = some k) :
    eq ∉ below.map Prod.fst := by
  intro hmem
  obtain ⟨f, hf, rfl⟩ := List.mem_map.1 hmem
  obtain ⟨j, hj, hfj⟩ := h.layer_lt hk f hf
  rw [hk, Option.some.injEq] at hfj
  omega

theorem LayerPath.nodup (h : LayerPath rows matchVar layer start eq below) (hk : layer eq = some k) :
    (eq :: below.map Prod.fst).Nodup := by
  refine List.nodup_cons.2 ⟨h.not_mem hk, ?_⟩
  induction h generalizing k with
  | base => exact List.nodup_nil
  | step hvar howner hlayer hnext hbelow ih => exact List.nodup_cons.2 ⟨hbelow.not_mem hlayer, ih hlayer⟩

theorem LayerPath.congr (h : LayerPath rows matchVar layer start eq below)
    (hlayer : ∀ e ∈ eq :: below.map Prod.fst, layer' e = layer e) : LayerPath rows matchVar layer' start eq below := by
  induction h with
  | base => exact .base
  | step hvar howner hl hnext hbelow ih =>
    refine .step hvar howner ((hlayer _ (by simp)).trans hl) ((hlayer _ (by simp)).trans hnext) (ih fun e he => ?_)
    exact hlayer e (List.mem_cons_of_mem _ he)

theorem LayerPath.edges (h : LayerPath rows matchVar layer start eq below) :
    (∀ f ∈ below, ((rows.row f.1)[f.2 - 1]?).map (Prod.mk f.1) = some (frameEdge rows f)) ∧
      (below.map fun f => matchVar (frameEdge rows f).2) = (eq :: below.map Prod.fst).dropLast.map some ∧
      (eq :: below.map Prod.fst).getLast? = some start := by
  induction h with
  | base => exact ⟨by simp, rfl, rfl⟩
  | @step eq var under cursor j below hvar howner hlayer hnext hbelow ih =>
    obtain ⟨hsome, howners, hlast⟩ := ih
    have hedge : frameEdge rows (under, cursor) = (under, var) := by simp [frameEdge, hvar]
    refine ⟨fun f hf => ?_, ?_, ?_⟩
    · rcases List.mem_cons.1 hf with rfl | hf
      · rw [hedge, hvar]
        rfl
      · exact hsome f hf
    · rw [List.map_cons, howners, hedge, howner]
      rfl
    · rw [List.map_cons, List.getLast?_cons_cons]
      exact hlast

/-- Flipping a path that ends in a free unknown matches `start` and no other equation anew. -/
theorem flipStack_spec (hM : M.Valid rows nEq) {cursor v : Nat}
    (h : LayerPath rows M.matchVar layer start eq below) (hk : layer eq = some k)
    (hlt : ∀ f ∈ below, f.1 < nEq) (heq : eq < nEq) (hv : (rows.row eq)[cursor]? = some v)
    (hfree : M.matchVar v = none) (hstart : M.matchEq start = none) :
    ∃ M', flipStack rows ((eq, cursor + 1) :: below) M = some M' ∧ M'.Valid rows nEq ∧
      ∀ e, M'.matchEq e = none ↔ M.matchEq e = none ∧ e ≠ start := by
  obtain ⟨hsome, howners, hlast⟩ := h.edges
  have htop : frameEdge rows (eq, cursor + 1) = (eq, v) := by simp [frameEdge, hv]
  set stack : List (Nat × Nat) := (eq, cursor + 1) :: below with hstack
  set edges := (stack.map (frameEdge rows)).reverse with hedges
  have hfst : edges.map Prod.fst = (eq :: below.map Prod.fst).reverse := by
    simp [hedges, hstack, frameEdge, Function.comp_def]
  have hnodup := h.nodup hk
  -- an equation on the path owns an unknown of it, unless it is `start`
  have howned : ∀ e ∈ eq :: below.map Prod.fst, e = start ∨ ∃ f ∈ below, M.matchVar (frameEdge rows f).2 = some e := by
    intro e he
    rw [← List.dropLast_append_getLast? start hlast, List.mem_append, List.mem_singleton] at he
    rcases he with he | he
    · have hmem := List.mem_map_of_mem (f := some) he
      rw [← howners] at hmem
      obtain ⟨f, hf, hfe⟩ := List.mem_map.1 hmem
      exact .inr ⟨f, hf, hfe⟩
    · exact .inl he
  have hmemEdges : ∀ p, p ∈ edges ↔ p = (eq, v) ∨ ∃ f ∈ below, frameEdge rows f = p := by
    intro p
    simp only [hedges, hstack, List.mem_reverse, List.map_cons, htop, List.mem_cons, List.mem_map]
  have hvars : (edges.map Prod.snd).Nodup := by
    have hbelow : (below.map fun f => (frameEdge rows f).2).Nodup := by
      refine List.Nodup.of_map M.matchVar ?_
      rw [List.map_map]
      have := (hnodup.sublist (List.dropLast_sublist _)).map (Option.some_injective Nat)
      rw [← howners] at this
      exact this
    rw [hedges, List.map_reverse, List.nodup_reverse, hstack, List.map_cons, List.map_cons, htop, List.nodup_cons,
      List.map_map]
    refine ⟨fun hmem => ?_, hbelow⟩
    obtain ⟨f, hf, hfv⟩ := List.mem_map.1 hmem
    have hmem := List.mem_map_of_mem (f := fun f => M.matchVar (frameEdge rows f).2) hf
    rw [howners] at hmem
    obtain ⟨e, -, he⟩ := List.mem_map.1 hmem
    simp only [Function.comp_apply] at hfv
    rw [hfv, hfree] at he
    cases he
  have heqs : (edges.map Prod.fst).Nodup := by
    rw [hfst, List.nodup_reverse]
    exact hnodup
  have hvalid : (flipEdges edges M).Valid rows nEq := by
    refine hM.flip heqs hvars (fun p hp => ?_) (fun p hp e he => ?_) fun p hp w hw => ?_
    · rcases (hmemEdges p).1 hp with rfl | ⟨f, hf, rfl⟩
      · exact ⟨List.mem_of_getElem? hv, heq⟩
      · have hedge := hsome f hf
        obtain ⟨w, hw, heq⟩ := Option.map_eq_some_iff.1 hedge
        rw [← heq]
        exact ⟨List.mem_of_getElem? hw, hlt f hf⟩
    · rw [hfst, List.mem_reverse]
      rcases (hmemEdges p).1 hp with rfl | ⟨f, hf, rfl⟩
      · rw [hfree] at he
        cases he
      · have hmem := List.mem_map_of_mem (f := fun f => M.matchVar (frameEdge rows f).2) hf
        rw [howners] at hmem
        obtain ⟨e', he', heq⟩ := List.mem_map.1 hmem
        rw [he, Option.some.injEq] at heq
        exact heq ▸ (List.dropLast_sublist _).subset he'
    · have hpe : p.1 ∈ eq :: below.map Prod.fst := by
        have := List.mem_map_of_mem (f := Prod.fst) hp
        rwa [hfst, List.mem_reverse] at this
      rcases howned p.1 hpe with heq | ⟨f, hf, howner⟩
      · rw [heq, hstart] at hw
        cases hw
      · have hmatched := hM.eq_of_var _ _ howner
        rw [hw, Option.some.injEq] at hmatched
        rw [hmatched]
        exact List.mem_map_of_mem ((hmemEdges _).2 (.inr ⟨f, hf, rfl⟩))
  refine ⟨flipEdges edges M, ?_, hvalid, fun e => ?_⟩
  · have hmap : stack.reverse.mapM (fun f : Nat × Nat => ((rows.row f.1)[f.2 - 1]?).map (Prod.mk f.1)) =
        some (stack.reverse.map (frameEdge rows)) :=
      mapM_eq_some_map fun f hf => by
        rcases List.mem_cons.1 (List.mem_reverse.1 hf) with rfl | hf
        · rw [htop, Nat.add_sub_cancel, hv]
          rfl
        · exact hsome f hf
    rw [flipStack, pathEdges]
    rw [hmap, List.map_reverse]
    rfl
  · simp only [Option.eq_none_iff_forall_ne_some, ne_eq, flipEdges_matchEq heqs, hfst, List.mem_reverse]
    constructor
    · intro hnone
      have hout : e ∉ eq :: below.map Prod.fst := by
        intro hmem
        rw [← List.mem_reverse, ← hfst] at hmem
        obtain ⟨p, hp, rfl⟩ := List.mem_map.1 hmem
        exact hnone p.2 (.inl hp)
      refine ⟨fun w hw => hnone w (.inr ⟨hout, hw⟩), fun hes => hout ?_⟩
      rw [hes]
      exact List.mem_of_getLast? hlast
    · rintro ⟨hnone, hne⟩ w (hw | ⟨-, hw⟩)
      · have hmem : e ∈ eq :: below.map Prod.fst := by
          have := List.mem_map_of_mem (f := Prod.fst) hw
          rwa [hfst, List.mem_reverse] at this
        obtain ⟨f, -, howner⟩ := (howned e hmem).resolve_left hne
        exact hnone _ (hM.eq_of_var _ _ howner)
      · exact hnone w hw

end

/-! ## One search -/

/-- The state of a search from `start` over the layers `before`. -/
structure LayeredInv (rows : IncidenceRows) (nEq : Nat) (M : Matching) (before : Nat → Option Nat) (start : Nat)
    (s : LayeredSearch) : Prop where
  matching : s.matching = M
  path : ∀ top below, s.stack = top :: below → LayerPath rows M.matchVar s.layer start top.1 below
  frames : ∀ f ∈ s.stack, s.layer f.1 ≠ none ∧ f.1 < nEq ∧ f.2 ≤ (rows.row f.1).length
  retired : ∀ e, s.layer e = before e ∨ (s.layer e = none ∧ (e = start ∨ ∃ v, M.matchVar v = some e))
  ended : s.stack = [] → s.layer start = none

/-- What a search leaves: `start` matched too, or nothing changed but layers retired. -/
structure LayeredPost (rows : IncidenceRows) (nEq : Nat) (M : Matching) (before : Nat → Option Nat) (start : Nat)
    (r : LayeredSearch × Bool) : Prop where
  retired : ∀ e, r.1.layer e = before e ∨ (r.1.layer e = none ∧ (e = start ∨ ∃ v, M.matchVar v = some e))
  failed : r.2 = false → r.1.matching = M ∧ r.1.layer start = none
  augmented : r.2 = true → r.1.matching.Valid rows nEq ∧
    ∀ e, r.1.matching.matchEq e = none ↔ M.matchEq e = none ∧ e ≠ start

/-- The cursor of `e` on the stack. -/
def cursorOf (stack : List (Nat × Nat)) (e : Nat) : Nat := ((stack.find? (·.1 = e)).map Prod.snd).getD 0

/-- What an equation can still cost: its unvisited unknowns and its retirement. -/
def remaining (rows : IncidenceRows) (s : LayeredSearch) (e : Nat) : Nat :=
  if s.layer e = none then 0 else (rows.row e).length + 1 - cursorOf s.stack e

def searchBudget (rows : IncidenceRows) (nEq : Nat) (s : LayeredSearch) : Nat := ∑ e ∈ Finset.range nEq, remaining rows s e

section
variable {before : Nat → Option Nat} {start eq cursor k : Nat} {below : List (Nat × Nat)} {s s' : LayeredSearch}

theorem cursorOf_cons (f : Nat × Nat) (stack : List (Nat × Nat)) (e : Nat) :
    cursorOf (f :: stack) e = if f.1 = e then f.2 else cursorOf stack e := by
  unfold cursorOf
  by_cases hf : f.1 = e <;> simp [hf]

theorem cursorOf_eq_zero {stack : List (Nat × Nat)} {e : Nat} (h : e ∉ stack.map Prod.fst) : cursorOf stack e = 0 := by
  induction stack with
  | nil => rfl
  | cons f stack ih =>
    rw [List.map_cons, List.mem_cons, not_or] at h
    rw [cursorOf_cons, if_neg (Ne.symm h.1), ih h.2]

theorem searchBudget_le (rows : IncidenceRows) (nEq : Nat) (s : LayeredSearch) :
    searchBudget rows nEq s ≤ phaseSteps nEq rows := by
  refine Finset.sum_le_sum fun e _ => ?_
  unfold remaining
  split <;> omega

theorem searchBudget_lt (heq : eq < nEq) (hlt : remaining rows s' eq < remaining rows s eq)
    (hother : ∀ e ≠ eq, remaining rows s' e = remaining rows s e) :
    searchBudget rows nEq s' < searchBudget rows nEq s := by
  refine Finset.sum_lt_sum (fun e _ => ?_) ⟨eq, Finset.mem_range.2 heq, hlt⟩
  by_cases he : e = eq
  · exact he ▸ hlt.le
  · exact (hother e he).le

theorem LayeredInv.top (h : LayeredInv rows nEq M before start s) (hs : s.stack = (eq, cursor) :: below) :
    LayerPath rows M.matchVar s.layer start eq below ∧ (∃ k, s.layer eq = some k) ∧ eq < nEq ∧
      cursor ≤ (rows.row eq).length := by
  obtain ⟨hlayer, hlt, hle⟩ := h.frames (eq, cursor) (hs ▸ List.mem_cons_self ..)
  exact ⟨h.path _ _ hs, Option.ne_none_iff_exists'.1 hlayer, hlt, hle⟩

theorem LayeredInv.pop (h : LayeredInv rows nEq M before start s) (hs : s.stack = (eq, cursor) :: below) :
    LayeredInv rows nEq M before start { s with layer := Function.update s.layer eq none, stack := below } := by
  obtain ⟨hpath, ⟨k, hk⟩, hlt, hle⟩ := h.top hs
  have hout : ∀ e ∈ below.map Prod.fst, Function.update s.layer eq none e = s.layer e := fun e he =>
    Function.update_of_ne (fun heq : e = eq => hpath.not_mem hk (heq ▸ he)) _ _
  have howned : eq = start ∨ ∃ v, M.matchVar v = some eq := by
    cases hpath with
    | base => exact .inl rfl
    | step hvar howner => exact .inr ⟨_, howner⟩
  refine ⟨h.matching, fun top rest hrest => ?_, fun f hf => ?_, fun e => ?_, fun hnil => ?_⟩
  · simp only at hrest
    subst hrest
    cases hpath with
    | step hvar howner hlayer hnext hbelow => exact hbelow.congr fun e he => hout e he
  · obtain ⟨hlayer, hrest⟩ := h.frames f (hs ▸ List.mem_cons_of_mem _ hf)
    exact ⟨fun hnone => hlayer ((hout f.1 (List.mem_map_of_mem hf)).symm.trans hnone), hrest⟩
  · by_cases he : e = eq
    · subst he
      exact .inr ⟨Function.update_self .., howned⟩
    · simp only [Function.update_of_ne he]
      exact h.retired e
  · simp only at hnil
    subst hnil
    cases hpath with
    | base => exact Function.update_self ..

theorem LayeredInv.pop_lt (h : LayeredInv rows nEq M before start s) (hs : s.stack = (eq, cursor) :: below) :
    searchBudget rows nEq { s with layer := Function.update s.layer eq none, stack := below } <
      searchBudget rows nEq s := by
  obtain ⟨hpath, ⟨k, hk⟩, hlt, hle⟩ := h.top hs
  refine searchBudget_lt hlt ?_ fun e he => ?_
  · simp only [remaining, Function.update_self, if_true, hk, reduceCtorEq, if_false, hs, cursorOf_cons]
    omega
  · simp only [remaining, Function.update_of_ne he, hs, cursorOf_cons, if_neg (Ne.symm he)]

theorem LayeredInv.visit (h : LayeredInv rows nEq M before start s) (hs : s.stack = (eq, cursor) :: below)
    (hcursor : cursor < (rows.row eq).length) :
    LayeredInv rows nEq M before start { s with stack := (eq, cursor + 1) :: below } := by
  obtain ⟨hpath, -⟩ := h.top hs
  refine ⟨h.matching, fun top rest hrest => ?_, fun f hf => ?_, h.retired, fun hnil => by cases hnil⟩
  · obtain ⟨rfl, rfl⟩ := List.cons.inj hrest
    exact hpath
  · rcases List.mem_cons.1 hf with rfl | hf
    · obtain ⟨hlayer, hlt, -⟩ := h.frames (eq, cursor) (hs ▸ List.mem_cons_self ..)
      exact ⟨hlayer, hlt, hcursor⟩
    · exact h.frames f (hs ▸ List.mem_cons_of_mem _ hf)

theorem LayeredInv.visit_lt (h : LayeredInv rows nEq M before start s) (hs : s.stack = (eq, cursor) :: below) :
    searchBudget rows nEq { s with stack := (eq, cursor + 1) :: below } < searchBudget rows nEq s := by
  obtain ⟨hpath, ⟨k, hk⟩, hlt, hle⟩ := h.top hs
  refine searchBudget_lt hlt ?_ fun e he => ?_
  · simp only [remaining, hk, reduceCtorEq, if_false, hs, cursorOf_cons, if_true]
    omega
  · simp only [remaining, hs, cursorOf_cons, if_neg (Ne.symm he)]

theorem LayeredInv.push (hM : M.Valid rows nEq) (h : LayeredInv rows nEq M before start s)
    (hs : s.stack = (eq, cursor + 1) :: below) {v next : Nat} (hv : (rows.row eq)[cursor]? = some v)
    (howner : M.matchVar v = some next) (hk : s.layer eq = some k) (hnext : s.layer next = some (k + 1)) :
    LayeredInv rows nEq M before start { s with stack := (next, 0) :: (eq, cursor + 1) :: below } := by
  obtain ⟨hpath, -⟩ := h.top hs
  refine ⟨h.matching, fun top rest hrest => ?_, fun f hf => ?_, h.retired, fun hnil => by cases hnil⟩
  · obtain ⟨rfl, rfl⟩ := List.cons.inj hrest
    exact .step hv howner hk hnext hpath
  · rcases List.mem_cons.1 hf with rfl | hf
    · exact ⟨by simp [hnext], (hM.edge next v (hM.eq_of_var next v howner)).2, Nat.zero_le _⟩
    · exact h.frames f (hs ▸ hf)

theorem LayeredInv.push_eq (h : LayeredInv rows nEq M before start s) (hs : s.stack = (eq, cursor) :: below)
    {next : Nat} (hk : s.layer eq = some k) (hnext : s.layer next = some (k + 1)) :
    searchBudget rows nEq { s with stack := (next, 0) :: s.stack } = searchBudget rows nEq s := by
  obtain ⟨hpath, -⟩ := h.top hs
  have hout : next ∉ s.stack.map Prod.fst := by
    rw [hs]
    intro hmem
    obtain ⟨f, hf, rfl⟩ := List.mem_map.1 hmem
    rcases List.mem_cons.1 hf with rfl | hf
    · rw [hk, Option.some.injEq] at hnext
      omega
    · obtain ⟨j, hj, hfj⟩ := hpath.layer_lt hk f hf
      rw [hnext, Option.some.injEq] at hfj
      omega
  refine Finset.sum_congr rfl fun e _ => ?_
  simp only [remaining, cursorOf_cons]
  by_cases he : next = e
  · subst he
    rw [if_pos rfl, cursorOf_eq_zero hout]
  · rw [if_neg he]

theorem augmentLayeredTurn_spec (hM : M.Valid rows nEq) (hstart : M.matchEq start = none)
    (h : LayeredInv rows nEq M before start s) :
    (∃ s', augmentLayeredTurn rows s = some (.next s') ∧ LayeredInv rows nEq M before start s' ∧
        searchBudget rows nEq s' < searchBudget rows nEq s) ∨
      ∃ r, augmentLayeredTurn rows s = some (.done r) ∧ LayeredPost rows nEq M before start r := by
  unfold augmentLayeredTurn
  cases hs : s.stack with
  | nil => exact .inr ⟨(s, false), rfl, h.retired, fun _ => ⟨h.matching, h.ended hs⟩, fun ht => (by cases ht)⟩
  | cons top below =>
    obtain ⟨eq, cursor⟩ := top
    obtain ⟨hpath, ⟨k, hk⟩, hlt, hle⟩ := h.top hs
    simp only [h.matching]
    cases hv : (rows.row eq)[cursor]? with
    | none => exact .inl ⟨_, rfl, h.matching ▸ h.pop hs, h.matching ▸ h.pop_lt hs⟩
    | some v =>
      have hcursor := (List.getElem?_eq_some_iff.1 hv).1
      have hvisit := h.visit hs hcursor
      have hvisit_lt := h.visit_lt hs
      rw [h.matching] at hvisit hvisit_lt
      cases howner : M.matchVar v with
      | none =>
        obtain ⟨M', hflip, hvalid, hnone⟩ := flipStack_spec hM hpath hk
          (fun f hf => (h.frames f (hs ▸ List.mem_cons_of_mem _ hf)).2.1) hlt hv howner hstart
        simp only [howner, hflip, Option.bind_eq_bind, Option.bind_some]
        exact .inr ⟨(⟨M', s.layer, (eq, cursor + 1) :: below⟩, true), rfl, h.retired, fun hf => (by cases hf),
          fun _ => ⟨hvalid, hnone⟩⟩
      | some next =>
        simp only [howner, hk, Option.map_some]
        by_cases hnext : s.layer next = some (k + 1)
        · rw [if_pos hnext]
          refine .inl ⟨_, rfl, hvisit.push hM rfl hv howner hk hnext, ?_⟩
          have hpush := hvisit.push_eq rfl hk hnext
          simp only at hpush
          rw [hpush]
          exact hvisit_lt
        · rw [if_neg hnext]
          exact .inl ⟨_, rfl, hvisit, hvisit_lt⟩

theorem layeredInv_start (hzero : before start = some 0) (hlt : start < nEq) :
    LayeredInv rows nEq M before start ⟨M, before, [(start, 0)]⟩ := by
  refine ⟨rfl, fun top below heq => ?_, fun f hf => ?_, fun e => .inl rfl, fun hnil => by cases hnil⟩
  · obtain ⟨rfl, rfl⟩ := List.cons.inj heq
    exact .base
  · obtain rfl := List.mem_singleton.1 hf
    exact ⟨by simp [hzero], hlt, Nat.zero_le _⟩

end

/-! ## Retired equations -/

/-- Retired since the layering `base`. -/
def Retired (base layer : Nat → Option Nat) (e : Nat) : Prop := base e ≠ none ∧ layer e = none

/-- The unknown `v` of `e` is owned, and its owner satisfies `P` if it is one layer up. -/
def OwnerUp (base : Nat → Option Nat) (M : Matching) (e v : Nat) (P : Nat → Prop) : Prop :=
  ∃ next, M.matchVar v = some next ∧ ∀ k, base e = some k → base next = some (k + 1) → P next

theorem OwnerUp.mono {base : Nat → Option Nat} {e v : Nat} {P Q : Nat → Prop} (h : OwnerUp base M e v P)
    (hPQ : ∀ next, P next → Q next) : OwnerUp base M e v Q := by
  obtain ⟨next, hnext, hP⟩ := h
  exact ⟨next, hnext, fun k hk hup => hPQ next (hP k hk hup)⟩

/-- While the matching stays: a retired equation has only owned unknowns, whose owners one layer up
are retired; those a frame has visited may also be on the stack. -/
structure RetiredInv (rows : IncidenceRows) (M : Matching) (base layer : Nat → Option Nat) (stack : List (Nat × Nat)) :
    Prop where
  layers : ∀ e, layer e = base e ∨ layer e = none
  closed : ∀ e, Retired base layer e → ∀ v ∈ rows.row e, OwnerUp base M e v (Retired base layer)
  scanned : ∀ f ∈ stack, ∀ i < f.2, ∀ v, (rows.row f.1)[i]? = some v →
    OwnerUp base M f.1 v fun next => Retired base layer next ∨ next ∈ stack.map Prod.fst

section
variable {base before : Nat → Option Nat} {start eq cursor k : Nat} {below : List (Nat × Nat)} {s : LayeredSearch}

theorem RetiredInv.base_eq {layer : Nat → Option Nat} {stack : List (Nat × Nat)}
    (h : RetiredInv rows M base layer stack) {e j : Nat} (he : layer e = some j) : base e = some j := by
  rcases h.layers e with heq | hnone
  · exact heq.symm.trans he
  · rw [hnone] at he
    cases he

theorem RetiredInv.pop (h : RetiredInv rows M base s.layer s.stack) (hinv : LayeredInv rows nEq M before start s)
    (hs : s.stack = (eq, cursor) :: below) (hend : (rows.row eq)[cursor]? = none) :
    RetiredInv rows M base (Function.update s.layer eq none) below := by
  obtain ⟨hpath, ⟨k, hk⟩, -, -⟩ := hinv.top hs
  have hbase := h.base_eq hk
  have hkeep : ∀ e, Retired base s.layer e → Retired base (Function.update s.layer eq none) e := by
    rintro e ⟨hb, hl⟩
    refine ⟨hb, ?_⟩
    by_cases he : e = eq
    · exact he ▸ Function.update_self ..
    · rwa [Function.update_of_ne he]
  have heq : Retired base (Function.update s.layer eq none) eq := ⟨by simp [hbase], Function.update_self ..⟩
  refine ⟨fun e => ?_, fun e he v hv => ?_, fun f hf i hi v hv => ?_⟩
  · by_cases he : e = eq
    · exact .inr (he ▸ Function.update_self ..)
    · rw [Function.update_of_ne he]
      exact h.layers e
  · by_cases hee : e = eq
    · subst hee
      obtain ⟨i, hi⟩ := List.mem_iff_getElem?.1 hv
      have hlt := (List.getElem?_eq_some_iff.1 hi).1
      have hlen := List.getElem?_eq_none_iff.1 hend
      obtain ⟨next, howner, hup⟩ := h.scanned (e, cursor) (hs ▸ List.mem_cons_self ..) i (by simp only; omega) v hi
      refine ⟨next, howner, fun j hj hnext => ?_⟩
      rcases hup j hj hnext with hret | hmem
      · exact hkeep next hret
      · -- nothing on the stack is one layer above the top
        rw [hbase, Option.some.injEq] at hj
        rw [hs] at hmem
        obtain ⟨f, hf, rfl⟩ := List.mem_map.1 hmem
        rcases List.mem_cons.1 hf with rfl | hf
        · rw [hbase, Option.some.injEq] at hnext
          omega
        · obtain ⟨i, hik, hfi⟩ := hpath.layer_lt hk f hf
          rw [h.base_eq hfi, Option.some.injEq] at hnext
          omega
    · have hret : Retired base s.layer e := ⟨he.1, by have := he.2; rwa [Function.update_of_ne hee] at this⟩
      exact (h.closed e hret v hv).mono hkeep
  · refine (h.scanned f (hs ▸ List.mem_cons_of_mem _ hf) i hi v hv).mono fun next hnext => ?_
    rcases hnext with hret | hmem
    · exact .inl (hkeep next hret)
    · rw [hs, List.map_cons, List.mem_cons] at hmem
      exact hmem.imp (fun he : next = eq => he ▸ heq) id

/-- The top equation visits an owned unknown, whose owner comes on top if it is one layer up. -/
theorem RetiredInv.visit (h : RetiredInv rows M base s.layer s.stack) (hs : s.stack = (eq, cursor) :: below)
    {v next : Nat} (hv : (rows.row eq)[cursor]? = some v) (howner : M.matchVar v = some next) (hk : s.layer eq = some k)
    {stack : List (Nat × Nat)} (hstack : stack = (eq, cursor + 1) :: below ∧ s.layer next ≠ some (k + 1) ∨
      stack = (next, 0) :: (eq, cursor + 1) :: below) : RetiredInv rows M base s.layer stack := by
  have hbase := h.base_eq hk
  have hsub : ∀ e ∈ s.stack.map Prod.fst, e ∈ stack.map Prod.fst := by
    intro e he
    rw [hs] at he
    rcases hstack with ⟨rfl, -⟩ | rfl
    · exact he
    · exact List.mem_cons_of_mem _ he
  have hframe : ∀ i < cursor + 1, ∀ w, (rows.row eq)[i]? = some w →
      OwnerUp base M eq w fun next => Retired base s.layer next ∨ next ∈ stack.map Prod.fst := by
    intro i hi w hw
    rcases Nat.lt_or_ge i cursor with hlt | hge
    · refine (h.scanned (eq, cursor) (hs ▸ List.mem_cons_self ..) i hlt w hw).mono fun e he => ?_
      exact he.imp id (hsub e)
    · obtain rfl : i = cursor := by omega
      rw [hv, Option.some.injEq] at hw
      subst hw
      refine ⟨next, howner, fun j hj hnext => ?_⟩
      rw [hbase, Option.some.injEq] at hj
      subst hj
      rcases hstack with ⟨-, hne⟩ | rfl
      · refine .inl ⟨by simp [hnext], ?_⟩
        exact (h.layers next).resolve_left fun heq => hne (heq.trans hnext)
      · exact .inr (by simp)
  have hbelow : ∀ f ∈ below, ∀ i < f.2, ∀ w, (rows.row f.1)[i]? = some w →
      OwnerUp base M f.1 w fun next => Retired base s.layer next ∨ next ∈ stack.map Prod.fst := fun f hf i hi w hw =>
    (h.scanned f (hs ▸ List.mem_cons_of_mem _ hf) i hi w hw).mono fun e he => he.imp id (hsub e)
  refine ⟨h.layers, h.closed, fun f hf => ?_⟩
  have hmem : f = (next, 0) ∨ f = (eq, cursor + 1) ∨ f ∈ below := by
    rcases hstack with ⟨rfl, -⟩ | rfl
    · exact .inr (List.mem_cons.1 hf)
    · simpa using hf
  rcases hmem with rfl | rfl | hf
  · exact fun i hi => absurd hi (Nat.not_lt_zero i)
  · exact hframe
  · exact hbelow f hf

theorem augmentLayeredTurn_retired (hinv : LayeredInv rows nEq M before start s)
    (h : RetiredInv rows M base s.layer s.stack) :
    (∀ s', augmentLayeredTurn rows s = some (.next s') → RetiredInv rows M base s'.layer s'.stack) ∧
      ∀ r, augmentLayeredTurn rows s = some (.done r) → r.2 = false → RetiredInv rows M base r.1.layer [] := by
  unfold augmentLayeredTurn
  cases hs : s.stack with
  | nil =>
    refine ⟨fun s' hs' => by simp at hs', fun r hr _ => ?_⟩
    simp only [Option.some.injEq, Ctl.done.injEq] at hr
    subst hr
    exact hs ▸ h
  | cons top below =>
    obtain ⟨eq, cursor⟩ := top
    obtain ⟨-, ⟨k, hk⟩, -, -⟩ := hinv.top hs
    simp only [hinv.matching]
    cases hv : (rows.row eq)[cursor]? with
    | none =>
      refine ⟨fun s' hs' => ?_, fun r hr => by simp at hr⟩
      simp only [Option.some.injEq, Ctl.next.injEq] at hs'
      subst hs'
      exact h.pop hinv hs hv
    | some v =>
      cases howner : M.matchVar v with
      | none =>
        simp only [howner, Option.bind_eq_bind, Option.bind_eq_some_iff, Option.some.injEq, Ctl.done.injEq, reduceCtorEq,
          and_false, exists_false, false_implies, implies_true, true_and, forall_exists_index, and_imp]
        rintro r M' - rfl hr
        cases hr
      | some next =>
        simp only [howner, hk, Option.map_some]
        by_cases hnext : s.layer next = some (k + 1)
        · rw [if_pos hnext]
          refine ⟨fun s' hs' => ?_, fun r hr => by simp at hr⟩
          simp only [Option.some.injEq, Ctl.next.injEq] at hs'
          subst hs'
          exact h.visit hs hv howner hk (.inr rfl)
        · rw [if_neg hnext]
          refine ⟨fun s' hs' => ?_, fun r hr => by simp at hr⟩
          simp only [Option.some.injEq, Ctl.next.injEq] at hs'
          subst hs'
          exact h.visit hs hv howner hk (.inl ⟨rfl, hnext⟩)

/-- A search ends; where it fails the retired equations stay closed. -/
theorem augmentLayered_spec (hM : M.Valid rows nEq) (hstart : M.matchEq start = none) (hlt : start < nEq)
    (hzero : before start = some 0) :
    ∃ r, augmentLayered nEq rows ⟨M, before, [(start, 0)]⟩ = some r ∧ LayeredPost rows nEq M before start r ∧
      ∀ base, RetiredInv rows M base before [] → r.2 = false → RetiredInv rows M base r.1.layer [] := by
  refine loop_spec (augmentLayeredTurn rows)
    (fun s => LayeredInv rows nEq M before start s ∧
      ∀ base, RetiredInv rows M base before [] → RetiredInv rows M base s.layer s.stack)
    (searchBudget rows nEq)
    (fun r => LayeredPost rows nEq M before start r ∧
      ∀ base, RetiredInv rows M base before [] → r.2 = false → RetiredInv rows M base r.1.layer [])
    (fun s hs => ?_) (phaseSteps nEq rows + 1) _ ⟨layeredInv_start hzero hlt, fun base h => ?_⟩
    (Nat.lt_succ_of_le (searchBudget_le ..))
  · obtain ⟨hinv, hret⟩ := hs
    rcases augmentLayeredTurn_spec hM hstart hinv with ⟨s', hs', hinv', hlt'⟩ | ⟨r, hr, hpost⟩
    · exact .inl ⟨s', hs', ⟨hinv', fun base hb => (augmentLayeredTurn_retired hinv (hret base hb)).1 s' hs'⟩, hlt'⟩
    · exact .inr ⟨r, hr, hpost, fun base hb => (augmentLayeredTurn_retired hinv (hret base hb)).2 r hr⟩
  · refine ⟨h.layers, h.closed, fun f hf i hi => ?_⟩
    obtain rfl := List.mem_singleton.1 hf
    exact absurd hi (Nat.not_lt_zero i)

end

end

end Rumoca.Structural
