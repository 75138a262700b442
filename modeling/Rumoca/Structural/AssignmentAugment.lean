import Rumoca.Structural.AssignmentSearch
/-!
# One augmentation

A finished search either shows the sink out of reach, or gives a path of
shortest edges back from it. Raising the potentials makes every edge of that
path tight, so reversing it keeps the dual solution.
-/

namespace Rumoca.Structural

open Rumoca.Lib

namespace Assignment

section
variable {n m : Nat} {w : Nat → Nat → Int} {adj : Nat → Nat → Prop} {unit slack : Int} {graph : Assignment}
  {R : Set Nat} {settled : List Nat} {search : Search}

theorem av_lt {A : Nat → Nat → Prop} {x : Nat} (h : FlowExcept n m A x) {u v : Nat} (hav : A u v) :
    v < n + m + 2 := by
  have := h.typed u v hav
  unfold Link IsColumn at this
  omega

theorem Residual.closed (h : Residual n m w adj slack graph) :
    ∃ (φ : Nat → Int) (R : Set Nat), n + m ∈ R ∧ (∀ v ∈ R, graph.potentials v = φ v) ∧
      (∀ u v, Av graph u v → 0 ≤ w u v + φ u - φ v) ∧ Closed n m w graph R := by
  obtain ⟨φ, R, hsrc, hφ, hdual⟩ := h.dual
  refine ⟨φ, R, hsrc, hφ, fun u v hav => (hdual u v hav).1, fun u v hav hu => ?_⟩
  obtain ⟨hnn, hv⟩ := hdual u v hav
  refine ⟨hv hu, ?_, av_lt h.flow hav⟩
  rw [reduced, hφ u hu, hφ v (hv hu)]
  exact hnn

/-! ## The path -/

/-- Consecutive nodes of a path given from its end, by the edges the search recorded. -/
def Trail (previous : Nat → Option (Nat × Nat)) : List Nat → Prop
  | v :: u :: rest => (∃ i, previous v = some (u, i)) ∧ Trail previous (u :: rest)
  | _ => True

/-- From every settled node the recorded edges lead back to the source. -/
theorem SearchInv.exists_trail (h : SearchInv n m w unit graph R settled (fun _ _ => False) search) :
    ∀ (k : Nat) (pre : List Nat) (v : Nat) (post : List Nat), post.length ≤ k → settled = pre ++ v :: post →
      ∃ rest, (∀ y ∈ rest, y ∈ post) ∧ (v :: rest).Nodup ∧ Trail search.previous (v :: rest) ∧
        (v :: rest).getLast? = some (n + m) := by
  intro k
  induction k with
  | zero =>
    intro pre v post hlen heq
    obtain rfl := List.length_eq_zero_iff.1 (Nat.le_zero.1 hlen)
    cases hp : search.previous v with
    | none =>
      rcases h.previous_none v (h.settled_reached v (heq ▸ by simp)) with rfl | hsome
      · exact ⟨[], by simp, by simp, trivial, rfl⟩
      · rw [hp] at hsome; cases hsome
    | some p => exact absurd (h.rank pre v [] heq p.1 p.2 hp) (by simp)
  | succ k ih =>
    intro pre v post hlen heq
    cases hp : search.previous v with
    | none =>
      rcases h.previous_none v (h.settled_reached v (heq ▸ by simp)) with rfl | hsome
      · exact ⟨[], by simp, by simp, trivial, rfl⟩
      · rw [hp] at hsome; cases hsome
    | some p =>
      obtain ⟨u, i⟩ := p
      obtain ⟨mid, post', rfl⟩ := List.append_of_mem (h.rank pre v post heq u i hp)
      obtain ⟨rest, hsub, hnd, htrail, hlast⟩ := ih (pre ++ v :: mid) u post' (by simp at hlen; omega) (by simp [heq])
      refine ⟨u :: rest, fun y hy => ?_, ?_, ⟨⟨i, hp⟩, htrail⟩, by simpa using hlast⟩
      · rcases List.mem_cons.1 hy with rfl | hy
        · simp
        · simp [hsub y hy]
      · refine List.nodup_cons.2 ⟨fun hv => ?_, hnd⟩
        have hpost : v ∈ mid ++ u :: post' := by
          rcases List.mem_cons.1 hv with rfl | hv
          · simp
          · simp [hsub v hv]
        have hnodup := h.nodup
        rw [heq] at hnodup
        exact (List.nodup_cons.1 (List.nodup_append.1 hnodup).2.1).1 hpost

theorem loopFallible_next {σ ρ : Type} {step : σ → Fallible (Ctl σ ρ)} {s s' : σ} (h : step s = pure (.next s'))
    (k : Nat) : loopFallible step (k + 1) s = loopFallible step k s' := by
  unfold loopFallible
  simp only [loop, turn, h]
  rfl

theorem pathLoop_spec (previous : Nat → Option (Nat × Nat)) (hshape : Shape n m w adj graph) {v : Nat}
    {rest : List Nat} (hprevious : ∀ v u i, previous v = some (u, i) →
      ∃ edge, (graph.edges u)[i]? = some edge ∧ edge.target = v)
    (htrail : Trail previous (v :: rest)) (hnd : (v :: rest).Nodup) (hlast : (v :: rest).getLast? = some (n + m))
    {fuel : Nat} (hfuel : rest.length < fuel) :
    ∃ graph', loopFallible (pathTurn previous) fuel (graph, v) = pure graph' ∧ Shape n m w adj graph' ∧
      graph'.potentials = graph.potentials ∧ Av graph' = flipPath (Av graph) (v :: rest) := by
  obtain ⟨fuel, rfl⟩ : ∃ k, fuel = k + 1 := ⟨fuel - 1, by omega⟩
  induction rest generalizing graph v fuel with
  | nil =>
    obtain rfl : v = n + m := by simpa using hlast
    refine ⟨graph, ?_, hshape, rfl, rfl⟩
    have hstep : pathTurn previous (graph, n + m) = pure (.done graph) := by
      simp only [pathTurn, hshape.source_eq, if_true]
    unfold loopFallible
    simp only [loop, turn, hstep]
    rfl
  | cons u rest ih =>
    obtain ⟨⟨i, hp⟩, htrail'⟩ := htrail
    obtain ⟨hnot, hnd'⟩ := List.nodup_cons.1 hnd
    have hne : v ≠ n + m := by
      rintro rfl
      exact hnot (List.mem_of_getLast? (by simpa using hlast))
    obtain ⟨edge, hedge, rfl⟩ := hprevious v u i hp
    obtain ⟨graph₁, hr, hpot, hsame, hshape₁, hav⟩ := reverseEdge_spec hshape hedge
    have hstep : pathTurn previous (graph, edge.target) = pure (.next (graph₁, u)) := by
      simp only [pathTurn, hshape.source_eq, if_neg hne, hp, orError_some, pure_bind, hr, orPanic_some]
    have hprevious₁ : ∀ v u i, previous v = some (u, i) →
        ∃ edge, (graph₁.edges u)[i]? = some edge ∧ edge.target = v := by
      intro v u i hvu
      obtain ⟨e, he, rfl⟩ := hprevious v u i hvu
      exact hsame u i e he
    simp only [List.length_cons] at hfuel
    obtain ⟨fuel, rfl⟩ : ∃ k, fuel = k + 1 := ⟨fuel - 1, by omega⟩
    obtain ⟨graph₂, hloop, hshape₂, hpot₂, hav₂⟩ := ih hshape₁ hprevious₁ htrail' hnd' (by simpa using hlast) fuel
      (by omega)
    refine ⟨graph₂, by rw [loopFallible_next hstep, hloop], hshape₂, hpot₂.trans hpot, ?_⟩
    rw [hav₂, flipPath]
    congr 1
    funext a b
    exact propext (hav a b)

theorem flipPath_sub {P : Nat → Nat → Prop} {path : List Nat} {A : Nat → Nat → Prop} (hA : ∀ a b, A a b → P a b)
    (hpath : ∀ pre v u post, path = pre ++ v :: u :: post → P v u) (a b : Nat) (h : flipPath A path a b) : P a b := by
  induction path generalizing A with
  | nil => exact hA a b h
  | cons v path ih =>
    cases path with
    | nil => exact hA a b h
    | cons u rest =>
      refine ih (A := flip A u v) (fun a b hab => ?_) (fun pre x y post heq => ?_) h
      · rcases hab with ⟨rfl, rfl⟩ | ⟨hab, -⟩
        · exact hpath [] _ _ rest rfl
        · exact hA a b hab
      · exact hpath (v :: pre) x y post (by rw [heq]; rfl)

theorem Trail.step {previous : Nat → Option (Nat × Nat)} {path pre post : List Nat} {v u : Nat}
    (h : Trail previous path) (heq : path = pre ++ v :: u :: post) : ∃ i, previous v = some (u, i) := by
  induction pre generalizing path with
  | nil => subst heq; exact h.1
  | cons a pre ih =>
    subst heq
    cases pre with
    | nil => exact ih h.2 rfl
    | cons b pre => exact ih h.2 rfl

theorem Trail.pathBack {previous : Nat → Option (Nat × Nat)} {A : Nat → Nat → Prop} {path : List Nat}
    (h : Trail previous path) (hA : ∀ v u i, previous v = some (u, i) → A u v) : PathBack A path := by
  induction path with
  | nil => trivial
  | cons v path ih =>
    cases path with
    | nil => trivial
    | cons u rest =>
      obtain ⟨⟨i, hi⟩, htrail⟩ := h
      exact ⟨hA v u i hi, ih htrail⟩

/-! ## Raising the potentials -/

def raised (graph : Assignment) (search : Search) (v : Nat) : Int :=
  if search.distance v ≠ unreached then graph.potentials v + search.distance v else graph.potentials v

theorem raised_le (hB : Bounds n m w unit slack) (hbound : ∀ v, |graph.potentials v| ≤ slack)
    (h : SearchInv n m w unit graph R settled (fun _ _ => False) search) (v : Nat) :
    |raised graph search v| ≤ slack := by
  unfold raised
  split
  · rename_i hv
    refine (h.node v hv).2.2.2.trans (le_trans (mul_le_mul_of_nonneg_left ?_ hB.unit_nonneg) hB.nodes_le)
    exact_mod_cast h.length_le
  · exact hbound v

theorem raisePotentials_eq (hB : Bounds n m w unit slack) (hbound : ∀ v, |graph.potentials v| ≤ slack)
    (h : SearchInv n m w unit graph R settled (fun _ _ => False) search) :
    graph.raisePotentials search = pure { graph with potentials := raised graph search } := by
  have hpotential : ∀ v, (if search.distance v ≠ unreached then
      checkedI64 (graph.potentials v + search.distance v) else some (graph.potentials v)) =
      some (raised graph search v) := by
    intro v
    have hle := raised_le hB hbound h v
    have hslack := abs_nonneg (graph.potentials v) |>.trans (hbound v)
    have hunit := hB.unit_nonneg
    unfold raised at hle ⊢
    by_cases hv : search.distance v ≠ unreached
    · rw [if_pos hv] at hle
      rw [if_pos hv, if_pos hv]
      exact hB.checked (by omega)
    · rw [if_neg hv, if_neg hv]
  unfold raisePotentials
  simp only [hpotential, Option.isSome_some, List.all_eq_true, implies_true, if_true, Option.getD_some]

theorem raised_dual (h : SearchInv n m w unit graph R settled (fun _ _ => False) search) (hq : search.queue = [])
    {φ : Nat → Int} (hφ : ∀ v ∈ R, graph.potentials v = φ v)
    (hdual : ∀ u v, Av graph u v → 0 ≤ w u v + φ u - φ v) :
    ∃ φ' : Nat → Int, (∀ v, search.Reached v → raised graph search v = φ' v) ∧
      ∀ u v, Av graph u v → 0 ≤ w u v + φ' u - φ' v ∧ (search.Reached u → search.Reached v) := by
  have hsettled : ∀ v, search.Reached v → v ∈ settled := fun v hv =>
    (h.pending v hv).resolve_right (by simp [hq])
  -- nodes out of reach are raised by the largest distance
  obtain ⟨top, htop⟩ : ∃ top : Int, ∀ v, search.Reached v → search.distance v ≤ top := by
    refine ⟨(settled.map search.distance).foldr max 0, fun v hv => ?_⟩
    have hmem := List.mem_map_of_mem (f := search.distance) (hsettled v hv)
    generalize settled.map search.distance = ds at hmem
    induction ds with
    | nil => cases hmem
    | cons d ds ih =>
      rcases List.mem_cons.1 hmem with rfl | hmem
      · exact le_max_left _ _
      · exact (ih hmem).trans (le_max_right _ _)
  classical
  refine ⟨fun v => if search.Reached v then φ v + search.distance v else φ v + top, fun v hv => ?_,
    fun u v hav => ?_⟩
  · have hdistance : search.distance v ≠ unreached := hv
    simp only [raised, if_pos hdistance, if_pos hv, hφ v (h.node v hv).2.1]
  · have hnn := hdual u v hav
    by_cases hu : search.Reached u
    · obtain ⟨hv, hle⟩ := h.relaxed u (hsettled u hu) v hav fun hf => hf
      rw [reduced, hφ u (h.node u hu).2.1, hφ v (h.node v hv).2.1] at hle
      simp only [if_pos hu, if_pos hv]
      exact ⟨by omega, fun _ => hv⟩
    · refine ⟨?_, fun hu' => absurd hu' hu⟩
      by_cases hv : search.Reached v
      · have := htop v hv
        simp only [if_neg hu, if_pos hv]
        omega
      · simp only [if_neg hu, if_neg hv]
        omega

/-! ## The augmentation -/

def Blocked (n m : Nat) (graph : Assignment) : Prop :=
  ∃ R : Set Nat, n + m ∈ R ∧ n + m + 1 ∉ R ∧ ∀ u v, Av graph u v → u ∈ R → v ∈ R

theorem augment_spec (hB : Bounds n m w unit slack) (hw : ∀ u v, w v u = -w u v)
    (h : Residual n m w adj slack graph) :
    (∃ graph', graph.augment = pure (graph', true) ∧ Residual n m w adj slack graph' ∧
        Augmented n m (Av graph) (Av graph')) ∨
      graph.augment = pure (graph, false) ∧ Blocked n m graph := by
  obtain ⟨φ, R, hsrc, hφ, hdual, hclosed⟩ := h.closed
  obtain ⟨search, settled, hrun, hinv, hq⟩ := runSearch_spec hB h.bound h.shape hclosed hsrc h.source_zero
  have hsettled : ∀ v, search.Reached v → v ∈ settled := fun v hv =>
    (hinv.pending v hv).resolve_right (by simp [hq])
  have hsource : search.Reached (n + m) := by
    unfold Search.Reached unreached i64Limit
    rw [hinv.source]
    omega
  unfold augment
  rw [hrun, pure_bind, h.shape.sink_eq]
  cases hp : search.previous (n + m + 1) with
  | none =>
    refine .inr ⟨by simp only [Option.isNone_none, if_true], {v | search.Reached v}, hsource, fun hsink => ?_,
      fun u v hav hu => (hinv.relaxed u (hsettled u hu) v hav fun hf => hf).1⟩
    rcases hinv.previous_none _ hsink with heq | hsome
    · omega
    · rw [hp] at hsome
      cases hsome
  | some p =>
    left
    obtain ⟨u, i⟩ := p
    obtain ⟨-, hu, -, hav, -⟩ := hinv.previous_some _ u i hp
    have hsink := (hinv.relaxed u hu _ hav fun hf => hf).1
    obtain ⟨pre, post, hsplit⟩ := List.append_of_mem (hsettled _ hsink)
    obtain ⟨rest, -, hnd, htrail, hlast⟩ := hinv.exists_trail post.length pre _ post (le_refl _) hsplit
    have hraise := raisePotentials_eq hB h.bound hinv
    set raisedGraph : Assignment := { graph with potentials := raised graph search } with hrg
    have hshape : Shape n m w adj raisedGraph :=
      ⟨h.shape.source_eq, h.shape.sink_eq, h.shape.pair, h.shape.unique, h.shape.cost, h.shape.adj_iff, h.shape.last⟩
    have hlen : rest.length < n + m + 1 + 2 := by
      have hsub : (n + m + 1) :: rest ⊆ List.range (n + m + 2) := by
        intro y hy
        refine List.mem_range.2 ?_
        rcases List.mem_cons.1 hy with rfl | hy
        · omega
        · -- a node behind another on the trail is settled
          obtain ⟨a, b, rfl⟩ := List.append_of_mem hy
          rcases List.eq_nil_or_concat a with rfl | ⟨a, z, rfl⟩
          · obtain ⟨j, hj⟩ := Trail.step htrail (List.nil_append _).symm
            exact (hinv.node y (hinv.settled_reached y (hinv.previous_some _ y j hj).2.1)).1
          · obtain ⟨j, hj⟩ := (Trail.step htrail (by simp : _ = ((n + m + 1) :: a) ++ z :: y :: b))
            exact (hinv.node y (hinv.settled_reached y (hinv.previous_some _ y j hj).2.1)).1
      have := (List.subperm_of_subset hnd hsub).length_le
      simp only [List.length_cons, List.length_range] at this
      omega
    obtain ⟨graph', hloop, hshape', hpot, hav'⟩ := pathLoop_spec search.previous hshape
      (fun v u i hvu => (hinv.previous_some v u i hvu).2.2.1) htrail hnd hlast hlen
    have hAv : Av raisedGraph = Av graph := rfl
    rw [hAv] at hav'
    have hne : rest ≠ [] := by
      rintro rfl
      simp at hlast
    have hlast' : rest.getLast? = some (n + m) := by
      obtain ⟨a, rest', rfl⟩ := List.exists_cons_of_ne_nil hne
      simpa using hlast
    have haug := h.flow.flipPath (htrail.pathBack fun v u i hvu => (hinv.previous_some v u i hvu).2.2.2.1) hnd hlast'
    refine ⟨graph', ?_, ⟨hshape', ?_, ?_, fun v => ?_, ?_⟩, ?_⟩
    · simp only [Option.isNone_some, Bool.false_eq_true, if_false, hraise, pure_bind]
      rw [h.shape.sink_eq, hloop, pure_bind]
    · rw [hav']
      exact haug.1
    · obtain ⟨φ', hφ', hdual'⟩ := raised_dual hinv hq hφ hdual
      refine ⟨φ', {v | search.Reached v}, hsource, fun v hv => ?_, fun u v huv => ?_⟩
      · rw [hpot]
        exact hφ' v hv
      · rw [hav'] at huv
        refine flipPath_sub (P := fun u v => 0 ≤ w u v + φ' u - φ' v ∧ (search.Reached u → search.Reached v))
          hdual' (fun pre x y post heq => ?_) u v huv
        -- a recorded edge is tight, and so is its reverse
        obtain ⟨j, hj⟩ := htrail.step heq
        obtain ⟨-, hy, -, havxy, hdist⟩ := hinv.previous_some x y j hj
        have hyr := hinv.settled_reached y hy
        have hxr := (hinv.relaxed y hy x havxy fun hf => hf).1
        refine ⟨?_, fun _ => hyr⟩
        have hdx : search.distance x ≠ unreached := hxr
        have hdy : search.distance y ≠ unreached := hyr
        rw [← hφ' x hxr, ← hφ' y hyr, hw y x, raised, raised, if_pos hdx, if_pos hdy, hdist, reduced]
        omega
    · rw [hpot]
      exact raised_le hB h.bound hinv v
    · rw [hpot, hrg]
      simp only [raised, hinv.source, h.source_zero, add_zero, ite_self]
    · rw [hav']
      exact haug

/-! ## Direct augmentation -/

def Tight (w : Nat → Nat → Int) (graph : Assignment) (u i v : Nat) : Prop :=
  ∃ edge, (graph.edges u)[i]? = some edge ∧ edge.target = v ∧ edge.available = true ∧ reduced w graph u v = 0

theorem Tight.av {u i v : Nat} (h : Tight w graph u i v) : Av graph u v := by
  obtain ⟨edge, he, ht, hav, -⟩ := h
  exact ⟨edge, List.mem_of_getElem? he, ht, hav⟩

theorem directColumnFrom_spec (hB : Bounds n m w unit slack) (h : Residual n m w adj slack graph)
    (hclosed : Closed n m w graph R) {row : Nat} (hrow : row < n) (hR : row ∈ R) (edges : List Edge) (index : Nat)
    (hedges : ∀ (k : Nat) edge, edges[k]? = some edge → (graph.edges row)[index + k]? = some edge) :
    ∃ r, graph.directColumnFrom row edges index = pure r ∧ ∀ i j, r = some (i, j) →
      ∃ c, IsColumn n m c ∧ Tight w graph row i c ∧ Tight w graph c j (n + m + 1) := by
  induction edges generalizing index with
  | nil => exact ⟨none, rfl, fun i j hr => by cases hr⟩
  | cons edge edges ih =>
    have he : (graph.edges row)[index]? = some edge := hedges 0 edge rfl
    obtain ⟨r, hr, hpost⟩ := ih (index + 1) fun k e hk => by
      have := hedges (k + 1) e (by simpa using hk)
      rwa [show index + (k + 1) = index + 1 + k by omega] at this
    unfold directColumnFrom
    by_cases hskip : ¬ edge.available = true ∨ edge.target = graph.source
    · exact ⟨r, by rw [if_pos hskip]; exact hr, hpost⟩
    rw [if_neg hskip]
    rw [not_or, not_not, h.shape.source_eq] at hskip
    have hav : Av graph row edge.target := (h.shape.av_iff he).2 hskip.1
    obtain ⟨hcR, hnn, -⟩ := hclosed row edge.target hav hR
    have hcol : IsColumn n m edge.target := by
      have := h.flow.typed row edge.target hav
      unfold Link IsColumn at *
      omega
    have hreduced := reducedCost_eq hB h.bound h.shape (List.mem_of_getElem? he) hnn
    simp only [hreduced, pure_bind]
    by_cases hzero : reduced w graph row edge.target = 0
    · obtain ⟨terminal, hlast, hterm⟩ := h.shape.last edge.target hcol
      rw [List.getLast?_eq_getElem?] at hlast
      simp only [hzero, ne_eq, not_true_eq_false, if_false, hlast, orPanic_some, pure_bind]
      by_cases htav : terminal.available = true
      · have htermAv : Av graph edge.target terminal.target := (h.shape.av_iff hlast).2 htav
        obtain ⟨-, htnn, -⟩ := hclosed _ _ htermAv hcR
        have htreduced := reducedCost_eq hB h.bound h.shape (List.mem_of_getElem? hlast) htnn
        simp only [htav, not_true_eq_false, if_false, htreduced, pure_bind]
        by_cases htzero : reduced w graph edge.target terminal.target = 0
        · refine ⟨_, by rw [if_pos htzero], fun i j hij => ?_⟩
          obtain ⟨rfl, rfl⟩ := Prod.mk.inj (Option.some.inj hij)
          exact ⟨edge.target, hcol, ⟨edge, he, rfl, hskip.1, hzero⟩, ⟨terminal, hlast, hterm, htav, hterm ▸ htzero⟩⟩
        · exact ⟨r, by rw [if_neg htzero]; exact hr, hpost⟩
      · exact ⟨r, by simp only [htav, Bool.false_eq_true, not_false_eq_true, if_true]; exact hr, hpost⟩
    · exact ⟨r, by rw [if_pos hzero]; exact hr, hpost⟩

theorem flipPath_direct {A : Nat → Nat → Prop} {row c : Nat} (hrow : row < n) (hc : IsColumn n m c) :
    flip (flip (flip A (n + m) row) row c) c (n + m + 1) = flipPath A [n + m + 1, c, row, n + m] := by
  unfold IsColumn at hc
  funext a b
  refine propext ?_
  simp only [flipPath, flip]
  grind

theorem reverseEdge_tight (hshape : Shape n m w adj graph) {u i v : Nat}
    (ht : ∃ edge, (graph.edges u)[i]? = some edge ∧ edge.target = v) :
    ∃ graph', graph.reverseEdge u i = some graph' ∧ graph'.potentials = graph.potentials ∧
      SameTargets graph graph' ∧ Shape n m w adj graph' ∧ Av graph' = flip (Av graph) u v := by
  obtain ⟨edge, he, rfl⟩ := ht
  obtain ⟨graph', hr, hp, hs, hsh, hav⟩ := reverseEdge_spec hshape he
  exact ⟨graph', hr, hp, hs, hsh, funext fun a => funext fun b => propext (hav a b)⟩

theorem SameTargets.trans {graph' graph'' : Assignment} (h : SameTargets graph graph')
    (h' : SameTargets graph' graph'') : SameTargets graph graph'' := by
  intro u i edge he
  obtain ⟨e', he', ht'⟩ := h u i edge he
  obtain ⟨e'', he'', ht''⟩ := h' u i e' he'
  exact ⟨e'', he'', ht''.trans ht'⟩

/-- One source edge: nothing happens, or a tight path of three edges is reversed. -/
theorem augmentDirectEdge_spec (hB : Bounds n m w unit slack) (hw : ∀ u v, w v u = -w u v)
    (h : Residual n m w adj slack graph) {sourceEdge : Nat} (count : Nat) {edge : Edge}
    (he : (graph.edges (n + m))[sourceEdge]? = some edge) :
    augmentDirectEdge (graph, count) sourceEdge = pure (graph, count) ∨
      ∃ graph', augmentDirectEdge (graph, count) sourceEdge = pure (graph', count + 1) ∧
        Residual n m w adj slack graph' ∧ SameTargets graph graph' ∧ Augmented n m (Av graph) (Av graph') := by
  obtain ⟨φ, R, hsrc, hφ, hdual, hclosed⟩ := h.closed
  simp only [augmentDirectEdge, h.shape.source_eq, he, orPanic_some, pure_bind]
  by_cases hav : edge.available = true
  swap
  · exact .inl (by simp only [hav, Bool.false_eq_true, not_false_eq_true, if_true])
  have hAv : Av graph (n + m) edge.target := (h.shape.av_iff he).2 hav
  obtain ⟨hrR, hnn, -⟩ := hclosed _ _ hAv hsrc
  have hrow : edge.target < n := by
    have := h.flow.typed _ _ hAv
    unfold Link IsColumn at *
    omega
  have hreduced := reducedCost_eq hB h.bound h.shape (List.mem_of_getElem? he) hnn
  simp only [hav, not_true_eq_false, if_false, hreduced, pure_bind]
  by_cases hzero : reduced w graph (n + m) edge.target = 0
  swap
  · exact .inl (by rw [if_pos hzero])
  simp only [hzero, ne_eq, not_true_eq_false, if_false]
  obtain ⟨r, hr, hpost⟩ := directColumnFrom_spec hB h hclosed hrow hrR (graph.edges edge.target) 0
    fun k e hk => by rwa [Nat.zero_add]
  rw [directColumn, hr, pure_bind]
  cases r with
  | none => exact .inl rfl
  | some pair =>
    obtain ⟨i, j⟩ := pair
    obtain ⟨c, hc, hrow_c, hc_sink⟩ := hpost i j rfl
    obtain ⟨first, hfirst, hft, -⟩ := id hrow_c
    obtain ⟨graph₁, hr₁, hp₁, hs₁, hsh₁, hav₁⟩ := reverseEdge_tight h.shape ⟨edge, he, rfl⟩
    obtain ⟨graph₂, hr₂, hp₂, hs₂, hsh₂, hav₂⟩ := reverseEdge_tight hsh₁ (v := c) (by
      obtain ⟨e, he', ht'⟩ := hs₁ _ _ _ hfirst
      exact ⟨e, he', ht'.trans hft⟩)
    obtain ⟨graph₃, hr₃, hp₃, hs₃, hsh₃, hav₃⟩ := reverseEdge_tight hsh₂ (v := n + m + 1) (by
      obtain ⟨t, ht, htt, -⟩ := id hc_sink
      obtain ⟨e, he', ht'⟩ := (hs₁.trans hs₂) _ _ _ ht
      exact ⟨e, he', ht'.trans htt⟩)
    have hav' : Av graph₃ = flipPath (Av graph) [n + m + 1, c, edge.target, n + m] := by
      rw [hav₃, hav₂, hav₁, flipPath_direct hrow hc]
    have hpot : graph₃.potentials = graph.potentials := hp₃.trans (hp₂.trans hp₁)
    have hcR := (hclosed _ _ hrow_c.av hrR).1
    have htR := (hclosed _ _ hc_sink.av hcR).1
    have hback : PathBack (Av graph) [n + m + 1, c, edge.target, n + m] := ⟨hc_sink.av, hrow_c.av, hAv, trivial⟩
    have haug := h.flow.flipPath hback (by unfold IsColumn at hc; simp; omega) rfl
    refine .inr ⟨graph₃, ?_, ⟨hsh₃, hav' ▸ haug.1, ?_, fun v => hpot ▸ h.bound v, hpot ▸ h.source_zero⟩,
      hs₁.trans (hs₂.trans hs₃), hav' ▸ haug⟩
    · simp only [hfirst, hft, orPanic_some, pure_bind, hr₁, hr₂, hr₃]
    · refine ⟨φ, R, hsrc, fun v hv => hpot ▸ hφ v hv, fun u v huv => ?_⟩
      rw [hav'] at huv
      have htight : ∀ x y, y ∈ R → x ∈ R → reduced w graph y x = 0 →
          0 ≤ w x y + φ x - φ y ∧ (x ∈ R → y ∈ R) := by
        intro x y hy hx hred
        rw [reduced, hφ y hy, hφ x hx] at hred
        rw [hw y x]
        exact ⟨by omega, fun _ => hy⟩
      refine flipPath_sub (P := fun u v => 0 ≤ w u v + φ u - φ v ∧ (u ∈ R → v ∈ R))
        (fun a b hab => ⟨hdual a b hab, fun ha => (hclosed a b hab ha).1⟩) (fun pre x y post heq => ?_) u v huv
      obtain ⟨-, -, -, -, hz₁⟩ := hrow_c
      obtain ⟨-, -, -, -, hz₂⟩ := hc_sink
      rcases pre with - | ⟨a, - | ⟨b, - | ⟨d, pre⟩⟩⟩
      · obtain ⟨rfl, rfl, -⟩ : n + m + 1 = x ∧ c = y ∧ _ := by simpa using heq
        exact htight _ _ hcR htR hz₂
      · obtain ⟨-, rfl, rfl, -⟩ : _ ∧ c = x ∧ edge.target = y ∧ _ := by simpa using heq
        exact htight _ _ hrR hcR hz₁
      · obtain ⟨-, -, rfl, rfl, -⟩ : _ ∧ _ ∧ edge.target = x ∧ n + m = y ∧ _ := by simpa using heq
        exact htight _ _ hsrc hrR hzero
      · have := congrArg List.length heq
        simp only [List.length_cons, List.length_append, List.length_nil] at this
        omega

end

end Assignment

end Rumoca.Structural
