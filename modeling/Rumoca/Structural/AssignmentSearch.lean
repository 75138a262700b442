import Rumoca.Structural.AssignmentGraph
/-!
# The shortest path search

`Residual` is what every augmentation keeps: the matching of `Flow`, and a
dual solution that agrees with the potentials on a set of nodes holding the
source and closed under available edges. On that set no reduced cost is
negative, so the search is Dijkstra's; `settled` lists, latest first, the
nodes whose distance is final.
-/

namespace Rumoca.Structural

open Rumoca.Lib

namespace Assignment

/-- The sizes and costs of a graph: `slack` bounds every potential, and no
64-bit operation on such potentials overflows. -/
structure Bounds (n m : Nat) (w : Nat → Nat → Int) (unit slack : Int) : Prop where
  unit_nonneg : 0 ≤ unit
  cost_le : ∀ u v, |w u v| ≤ unit
  nodes_le : unit * (n + m + 2 : Nat) ≤ slack
  fits : 2 * slack + unit + 1 < i64Limit

/-- The state between augmentations. -/
structure Residual (n m : Nat) (w : Nat → Nat → Int) (adj : Nat → Nat → Prop) (slack : Int)
    (graph : Assignment) : Prop where
  shape : Shape n m w adj graph
  flow : Flow n m (Av graph)
  dual : ∃ (φ : Nat → Int) (R : Set Nat), n + m ∈ R ∧ (∀ v ∈ R, graph.potentials v = φ v) ∧
    ∀ u v, Av graph u v → 0 ≤ w u v + φ u - φ v ∧ (u ∈ R → v ∈ R)
  bound : ∀ v, |graph.potentials v| ≤ slack
  source_zero : graph.potentials (n + m) = 0

section
variable {n m : Nat} {w : Nat → Nat → Int} {adj : Nat → Nat → Prop} {unit slack : Int} {graph : Assignment}
  (hB : Bounds n m w unit slack)

def reduced (w : Nat → Nat → Int) (graph : Assignment) (u v : Nat) : Int :=
  w u v + graph.potentials u - graph.potentials v

include hB

theorem Bounds.checked {z : Int} (h : |z| ≤ 2 * slack + unit) : checkedI64 z = some z := by
  have := hB.fits
  have := abs_le.1 h
  exact checkedI64_eq_some.2 ⟨rfl, by omega, by omega⟩

theorem reducedCost_eq (hbound : ∀ v, |graph.potentials v| ≤ slack) (hshape : Shape n m w adj graph) {u : Nat}
    {edge : Edge} (he : edge ∈ graph.edges u) (hnn : 0 ≤ reduced w graph u edge.target) :
    graph.reducedCost u edge = pure (reduced w graph u edge.target) := by
  have hcost := hshape.cost u edge he
  have h1 := abs_le.1 (hbound u)
  have h2 := abs_le.1 (hbound edge.target)
  have h3 := abs_le.1 (hB.cost_le u edge.target)
  have hfirst : checkedI64 (edge.cost + graph.potentials u) = some (w u edge.target + graph.potentials u) := by
    rw [hcost]
    exact hB.checked (abs_le.2 ⟨by omega, by omega⟩)
  have hsecond : checkedI64 (w u edge.target + graph.potentials u - graph.potentials edge.target) =
      some (reduced w graph u edge.target) := hB.checked (abs_le.2 ⟨by omega, by omega⟩)
  simp only [reducedCost, hfirst, hsecond, Option.bind_eq_bind, Option.bind_some, if_pos hnn, Option.pure_def,
    orError_some]

end

/-! ## The heap -/

theorem smallest_spec (queue : List (Int × Nat)) :
    match smallest queue with
    | none => queue = []
    | some entry => entry ∈ queue ∧ ∀ other ∈ queue, entry.1 ≤ other.1 := by
  induction queue with
  | nil => rfl
  | cons entry rest ih =>
    unfold smallest
    cases hs : smallest rest with
    | none =>
      rw [hs] at ih
      simp [ih]
    | some other =>
      rw [hs] at ih
      obtain ⟨hmem, hle⟩ := ih
      by_cases he : entryLe entry other = true
      · simp only [he, if_true]
        have hle' : entry.1 ≤ other.1 := by
          simp only [entryLe, decide_eq_true_eq] at he
          omega
        refine ⟨List.mem_cons_self .., fun o ho => ?_⟩
        rcases List.mem_cons.1 ho with rfl | ho
        · exact le_refl _
        · exact hle'.trans (hle o ho)
      · simp only [he, if_false, Bool.false_eq_true]
        have hle' : other.1 ≤ entry.1 := by
          simp only [entryLe, decide_eq_true_eq] at he
          omega
        refine ⟨List.mem_cons_of_mem _ hmem, fun o ho => ?_⟩
        rcases List.mem_cons.1 ho with rfl | ho
        · exact hle'
        · exact hle o ho

/-! ## The search -/

/-- `v` has a distance. -/
def Search.Reached (search : Search) (v : Nat) : Prop := search.distance v ≠ unreached

/-- The state of the search. `todo u v` exempts an edge of a settled node
that is still to be relaxed. -/
structure SearchInv (n m : Nat) (w : Nat → Nat → Int) (unit : Int) (graph : Assignment) (R : Set Nat)
    (settled : List Nat) (todo : Nat → Nat → Prop) (search : Search) : Prop where
  nodup : settled.Nodup
  settled_reached : ∀ u ∈ settled, search.Reached u
  source : search.distance (n + m) = 0
  node : ∀ v, search.Reached v → v < n + m + 2 ∧ v ∈ R ∧ 0 ≤ search.distance v ∧
    |graph.potentials v + search.distance v| ≤ unit * (settled.length : Int)
  queue_le : ∀ u ∈ settled, ∀ entry ∈ search.queue, search.distance u ≤ entry.1
  queue_ge : ∀ entry ∈ search.queue, search.Reached entry.2 ∧ search.distance entry.2 ≤ entry.1 ∧
    (entry.2 ∈ settled → search.distance entry.2 < entry.1)
  queue_nodup : search.queue.Nodup
  pending : ∀ v, search.Reached v → v ∈ settled ∨ (search.distance v, v) ∈ search.queue
  relaxed : ∀ u ∈ settled, ∀ v, Av graph u v → ¬ todo u v →
    search.Reached v ∧ search.distance v ≤ search.distance u + reduced w graph u v
  previous_some : ∀ v u i, search.previous v = some (u, i) → v ≠ n + m ∧ u ∈ settled ∧
    (∃ edge, (graph.edges u)[i]? = some edge ∧ edge.target = v) ∧ Av graph u v ∧
      search.distance v = search.distance u + reduced w graph u v
  previous_none : ∀ v, search.Reached v → v = n + m ∨ (search.previous v).isSome
  rank : ∀ pre v post, settled = pre ++ v :: post → ∀ u i, search.previous v = some (u, i) → u ∈ post

section
variable {n m : Nat} {w : Nat → Nat → Int} {adj : Nat → Nat → Prop} {unit slack : Int} {graph : Assignment}
  {R : Set Nat} {settled : List Nat} {todo : Nat → Nat → Prop} {search : Search}

theorem SearchInv.length_le (h : SearchInv n m w unit graph R settled todo search) :
    settled.length ≤ n + m + 2 := by
  have hsub : settled ⊆ List.range (n + m + 2) := fun u hu =>
    List.mem_range.2 (h.node u (h.settled_reached u hu)).1
  simpa using (List.subperm_of_subset h.nodup hsub).length_le

theorem searchInv_start (hR : n + m ∈ R) (hzero : graph.potentials (n + m) = 0) :
    SearchInv n m w unit graph R [] (fun _ _ => False)
      { distance := Function.update (fun _ => unreached) (n + m) 0, previous := fun _ => none, queue := [(0, n + m)] } where
  nodup := List.nodup_nil
  settled_reached := by simp
  source := by simp
  node v hv := by
    have hvs : v = n + m := by
      by_contra hne
      exact hv (by simp [hne])
    subst hvs
    simp [hR, hzero]
  queue_le := by simp
  queue_ge entry he := by
    obtain rfl := List.mem_singleton.1 he
    simp [Search.Reached, unreached, i64Limit]
  queue_nodup := by simp
  pending v hv := by
    have hvs : v = n + m := by
      by_contra hne
      exact hv (by simp [hne])
    subst hvs
    simp
  relaxed := by simp
  previous_some := by simp
  previous_none v hv := by
    by_contra hne
    exact hv (by simp [not_or.1 hne])
  rank pre v post h := by simp at h

theorem SearchInv.drop (h : SearchInv n m w unit graph R settled todo search) {cost : Int} {node : Nat}
    (hstale : cost ≠ search.distance node) :
    SearchInv n m w unit graph R settled todo { search with queue := search.queue.erase (cost, node) } where
  nodup := h.nodup
  settled_reached := h.settled_reached
  source := h.source
  node := h.node
  queue_le u hu entry he := h.queue_le u hu entry (List.mem_of_mem_erase he)
  queue_ge entry he := h.queue_ge entry (List.mem_of_mem_erase he)
  queue_nodup := h.queue_nodup.erase _
  pending v hv := (h.pending v hv).imp id fun hm => (List.mem_erase_of_ne fun heq => by
    obtain ⟨h1, h2⟩ := Prod.mk.inj heq
    exact hstale (h2 ▸ h1.symm)).2 hm
  relaxed := h.relaxed
  previous_some := h.previous_some
  previous_none := h.previous_none
  rank := h.rank

theorem SearchInv.settle (h : SearchInv n m w unit graph R settled (fun _ _ => False) search) (hunit : 0 ≤ unit)
    {cost : Int} {node : Nat} (hmem : (cost, node) ∈ search.queue)
    (hmin : ∀ other ∈ search.queue, cost ≤ other.1) (hcost : cost = search.distance node) :
    node ∉ settled ∧ SearchInv n m w unit graph R (node :: settled) (fun u _ => u = node)
      { search with queue := search.queue.erase (cost, node) } := by
  obtain ⟨hreach, -, hlt⟩ := h.queue_ge _ hmem
  have hnot : node ∉ settled := fun hs => by
    have := hlt hs
    simp only at this
    omega
  refine ⟨hnot, List.nodup_cons.2 ⟨hnot, h.nodup⟩, ?_, h.source, fun v hv => ?_, ?_, fun entry he => ?_,
    h.queue_nodup.erase _, fun v hv => ?_, fun u hu v hav htodo => ?_, fun v u i hp => ?_, h.previous_none, ?_⟩
  · intro u hu
    rcases List.mem_cons.1 hu with rfl | hu
    · exact hreach
    · exact h.settled_reached u hu
  · obtain ⟨h1, h2, h3, h4⟩ := h.node v hv
    refine ⟨h1, h2, h3, h4.trans ?_⟩
    exact mul_le_mul_of_nonneg_left (by simp) hunit
  · intro u hu entry he
    have he' := List.mem_of_mem_erase he
    rcases List.mem_cons.1 hu with rfl | hu
    · exact hcost ▸ hmin entry he'
    · exact h.queue_le u hu entry he'
  · obtain ⟨h1, h2, h3⟩ := h.queue_ge entry (List.mem_of_mem_erase he)
    refine ⟨h1, h2, fun hs => ?_⟩
    rcases List.mem_cons.1 hs with heq | hs
    · refine lt_of_le_of_ne h2 fun hd => ?_
      have hentry : entry = (cost, node) := Prod.ext (by rw [← hd, heq, hcost]) heq
      exact (h.queue_nodup.mem_erase_iff.1 he).1 hentry
    · exact h3 hs
  · by_cases hvn : v = node
    · exact .inl (by simp [hvn])
    · rcases h.pending v hv with hs | hq
      · exact .inl (List.mem_cons_of_mem _ hs)
      · exact .inr ((List.mem_erase_of_ne fun heq => hvn (Prod.mk.inj heq).2).2 hq)
  · rcases List.mem_cons.1 hu with rfl | hu
    · exact absurd rfl htodo
    · exact h.relaxed u hu v hav (fun hf => hf)
  · obtain ⟨h1, h2, h3⟩ := h.previous_some v u i hp
    exact ⟨h1, List.mem_cons_of_mem _ h2, h3⟩
  · intro pre v post heq u i hp
    cases pre with
    | nil =>
      obtain ⟨rfl, rfl⟩ := List.cons.inj heq
      exact (h.previous_some node u i hp).2.1
    | cons a pre => exact h.rank pre v post (List.cons.inj heq).2 u i hp

/-- The state while the edges of `node` are relaxed; `passed` are those done. -/
structure RelaxInv (n m : Nat) (w : Nat → Nat → Int) (unit : Int) (graph : Assignment) (R : Set Nat)
    (settled : List Nat) (node : Nat) (cost : Int) (start : Nat) (passed : List (Edge × Nat)) (search : Search) :
    Prop where
  inv : SearchInv n m w unit graph R (node :: settled) (fun u v => u = node ∧ ∀ e ∈ passed, e.1.target ≠ v) search
  cost_eq : search.distance node = cost
  le_cost : ∀ u ∈ node :: settled, search.distance u ≤ cost
  near : |graph.potentials node + cost| ≤ unit * (settled.length : Int)
  pushes : search.queue.length ≤ start + passed.length

def Closed (n m : Nat) (w : Nat → Nat → Int) (graph : Assignment) (R : Set Nat) : Prop :=
  ∀ u v, Av graph u v → u ∈ R → v ∈ R ∧ 0 ≤ reduced w graph u v ∧ v < n + m + 2

theorem RelaxInv.skip {node : Nat} {cost : Int} {start : Nat} {passed : List (Edge × Nat)} {edge : Edge} {i : Nat}
    (h : RelaxInv n m w unit graph R settled node cost start passed search)
    (hrelaxed : Av graph node edge.target →
      search.Reached edge.target ∧ search.distance edge.target ≤ cost + reduced w graph node edge.target) :
    RelaxInv n m w unit graph R settled node cost start (passed ++ [(edge, i)]) search := by
  refine ⟨{ h.inv with relaxed := fun u hu v hav htodo => ?_ }, h.cost_eq, h.le_cost, h.near, ?_⟩
  · by_cases hun : u = node
    · subst hun
      by_cases hv : v = edge.target
      · subst hv
        rw [h.cost_eq]
        exact hrelaxed hav
      · refine h.inv.relaxed u hu v hav fun ht => htodo ⟨rfl, fun e he => ?_⟩
        rcases List.mem_append.1 he with he | he
        · exact ht.2 e he
        · rw [List.mem_singleton.1 he]
          exact Ne.symm hv
    · exact h.inv.relaxed u hu v hav fun ht => hun ht.1
  · have := h.pushes
    simp only [List.length_append, List.length_singleton]
    omega

theorem RelaxInv.lower {node : Nat} {cost candidate : Int} {start : Nat} {passed : List (Edge × Nat)} {edge : Edge}
    {i : Nat} (h : RelaxInv n m w unit graph R settled node cost start passed search)
    (hshape : Shape n m w adj graph) (hclosed : Closed n m w graph R) (hcost : |w node edge.target| ≤ unit)
    (he : (graph.edges node)[i]? = some edge) (hav : edge.available = true)
    (hcand : candidate = cost + reduced w graph node edge.target) (hreach : candidate ≠ unreached)
    (hlt : candidate < search.distance edge.target) :
    RelaxInv n m w unit graph R settled node cost start (passed ++ [(edge, i)])
      { distance := Function.update search.distance edge.target candidate
        previous := Function.update search.previous edge.target (some (node, i))
        queue := (candidate, edge.target) :: search.queue } := by
  have hnode := h.inv.node node (h.inv.settled_reached node (List.mem_cons_self ..))
  have hAv : Av graph node edge.target := (hshape.av_iff he).2 hav
  obtain ⟨hvR, hnn, hvlt⟩ := hclosed node edge.target hAv hnode.2.1
  have hcost0 : 0 ≤ cost := by
    have := hnode.2.2.1
    rw [h.cost_eq] at this
    exact this
  -- a settled node is not lowered, and neither is the source
  have hnot : edge.target ∉ node :: settled := fun hs => by
    have := h.le_cost _ hs
    omega
  have hne_source : edge.target ≠ n + m := fun hs => by
    rw [hs, h.inv.source] at hlt
    omega
  have hsame : ∀ u ∈ node :: settled, u ≠ edge.target := fun u hu heq => hnot (heq ▸ hu)
  have hentries : ∀ entry ∈ search.queue, entry.2 = edge.target → candidate < entry.1 := fun entry hentry heq => by
    have := (h.inv.queue_ge entry hentry).2.1
    rw [heq] at this
    omega
  have hdv : Function.update search.distance edge.target candidate edge.target = candidate := Function.update_self ..
  have hdne : ∀ u, u ≠ edge.target → Function.update search.distance edge.target candidate u = search.distance u :=
    fun u hu => Function.update_of_ne hu ..
  have hdset : ∀ u ∈ node :: settled,
      Function.update search.distance edge.target candidate u = search.distance u := fun u hu => hdne u (hsame u hu)
  refine ⟨⟨h.inv.nodup, fun u hu => ?_, ?_, fun v hv => ?_, fun u hu entry hentry => ?_, fun entry hentry => ?_,
    ?_, fun v hv => ?_, fun u hu v hav' htodo => ?_, fun v u j hp => ?_, fun v hv => ?_, fun pre v post heq u j hp => ?_⟩,
    ?_, fun u hu => ?_, h.near, ?_⟩
  · simp only [Search.Reached, hdset u hu]
    exact h.inv.settled_reached u hu
  · simp only [hdne _ (Ne.symm hne_source)]
    exact h.inv.source
  · by_cases hvt : v = edge.target
    · subst hvt
      refine ⟨hvlt, hvR, ?_, ?_⟩
      · simp only [hdv]
        omega
      · have h1 := abs_le.1 h.near
        have h2 := abs_le.1 hcost
        have hlen : unit * ((node :: settled).length : Int) = unit * (settled.length : Int) + unit := by
          simp only [List.length_cons, Nat.cast_add, Nat.cast_one]
          ring
        have hval : graph.potentials edge.target + candidate =
            graph.potentials node + cost + w node edge.target := by
          rw [hcand, reduced]
          ring
        simp only [hdv]
        rw [hlen, hval]
        exact abs_le.2 ⟨by omega, by omega⟩
    · simp only [hdne v hvt]
      exact h.inv.node v (by simpa only [Search.Reached, hdne v hvt] using hv)
  · simp only [hdset u hu]
    rcases List.mem_cons.1 hentry with rfl | hentry
    · have := h.le_cost u hu
      simp only
      omega
    · exact h.inv.queue_le u hu entry hentry
  · rcases List.mem_cons.1 hentry with rfl | hentry
    · refine ⟨?_, ?_, fun hs => absurd hs hnot⟩
      · simp only [Search.Reached, hdv]
        exact hreach
      · simp only [hdv, le_refl]
    · obtain ⟨h1, h2, h3⟩ := h.inv.queue_ge entry hentry
      by_cases hvt : entry.2 = edge.target
      · refine ⟨?_, ?_, fun hs => absurd (hvt ▸ hs) hnot⟩
        · simp only [Search.Reached, hvt, hdv]
          exact hreach
        · simp only [hvt, hdv]
          exact (hentries entry hentry hvt).le
      · simp only [Search.Reached, hdne _ hvt]
        exact ⟨h1, h2, h3⟩
  · exact List.nodup_cons.2 ⟨fun hm => lt_irrefl _ (hentries _ hm rfl), h.inv.queue_nodup⟩
  · by_cases hvt : v = edge.target
    · subst hvt
      simp only [hdv]
      exact .inr (List.mem_cons_self ..)
    · have hv' : search.Reached v := by simpa only [Search.Reached, hdne v hvt] using hv
      simp only [hdne v hvt]
      exact (h.inv.pending v hv').imp id (List.mem_cons_of_mem _)
  · simp only [Search.Reached, hdset u hu]
    by_cases hvt : v = edge.target
    · subst hvt
      simp only [hdv]
      refine ⟨hreach, ?_⟩
      by_cases hun : u = node
      · rw [hun, h.cost_eq, hcand]
      · have := (h.inv.relaxed u hu _ hav' fun ht => hun ht.1).2
        omega
    · simp only [hdne v hvt]
      refine h.inv.relaxed u hu v hav' fun ht => htodo ⟨ht.1, fun e he => ?_⟩
      rcases List.mem_append.1 he with he | he
      · exact ht.2 e he
      · rw [List.mem_singleton.1 he]
        exact Ne.symm hvt
  · by_cases hvt : v = edge.target
    · subst hvt
      obtain ⟨rfl, rfl⟩ : node = u ∧ i = j := by simpa using hp
      refine ⟨hne_source, List.mem_cons_self .., ⟨edge, he, rfl⟩, hAv, ?_⟩
      simp only [hdv, hdset node (List.mem_cons_self ..), h.cost_eq]
      exact hcand
    · simp only [Function.update_of_ne hvt] at hp
      obtain ⟨h1, h2, h3, h4, h5⟩ := h.inv.previous_some v u j hp
      refine ⟨h1, h2, h3, h4, ?_⟩
      simp only [hdne v hvt, hdset u h2]
      exact h5
  · by_cases hvt : v = edge.target
    · exact .inr (by simp [hvt])
    · simp only [Function.update_of_ne hvt]
      exact h.inv.previous_none v (by simpa only [Search.Reached, hdne v hvt] using hv)
  · have hvt : v ≠ edge.target := hsame v (heq ▸ by simp)
    simp only [Function.update_of_ne hvt] at hp
    exact h.inv.rank pre v post heq u j hp
  · simp only [hdset node (List.mem_cons_self ..), h.cost_eq]
  · simp only [hdset u hu]
    exact h.le_cost u hu
  · have := h.pushes
    simp only [List.length_cons, List.length_append, List.length_nil]
    omega

theorem relaxEdge_spec (hB : Bounds n m w unit slack) (hbound : ∀ v, |graph.potentials v| ≤ slack)
    (hshape : Shape n m w adj graph) (hclosed : Closed n m w graph R) {node : Nat} {cost : Int} {start : Nat}
    {passed : List (Edge × Nat)} {edge : Edge} {i : Nat} (he : (graph.edges node)[i]? = some edge)
    (h : RelaxInv n m w unit graph R settled node cost start passed search) :
    ∃ search', graph.relaxEdge node cost search (edge, i) = pure search' ∧
      RelaxInv n m w unit graph R settled node cost start (passed ++ [(edge, i)]) search' := by
  unfold relaxEdge
  by_cases hav : edge.available = true
  · have hAv : Av graph node edge.target := (hshape.av_iff he).2 hav
    have hnode := h.inv.node node (h.inv.settled_reached node (List.mem_cons_self ..))
    obtain ⟨-, hnn, -⟩ := hclosed node edge.target hAv hnode.2.1
    have hlen : unit * ((node :: settled).length : Int) ≤ slack := by
      refine le_trans (mul_le_mul_of_nonneg_left ?_ hB.unit_nonneg) hB.nodes_le
      exact_mod_cast h.inv.length_le
    -- the candidate is the potential the target would get
    have hcand : |cost + reduced w graph node edge.target| ≤ 2 * slack := by
      have h1 := abs_le.1 h.near
      have h2 := abs_le.1 (hB.cost_le node edge.target)
      have h3 := abs_le.1 (hbound edge.target)
      have hcons : unit * ((node :: settled).length : Int) = unit * (settled.length : Int) + unit := by
        simp only [List.length_cons, Nat.cast_add, Nat.cast_one]
        ring
      have hval : cost + reduced w graph node edge.target =
          graph.potentials node + cost + w node edge.target - graph.potentials edge.target := by
        rw [reduced]
        ring
      rw [hval]
      exact abs_le.2 ⟨by omega, by omega⟩
    have hunit := hB.unit_nonneg
    have hfits := hB.fits
    have hcand' := abs_le.1 hcand
    have hchecked : checkedI64 (cost + reduced w graph node edge.target) =
        some (cost + reduced w graph node edge.target) := hB.checked (by omega)
    have hreduced := reducedCost_eq hB hbound hshape (List.mem_of_getElem? he) hnn
    simp only [hav, not_true_eq_false, if_false, hreduced, pure_bind, hchecked, orError_some]
    by_cases hlt : cost + reduced w graph node edge.target < search.distance edge.target
    · rw [if_pos hlt]
      refine ⟨_, rfl, h.lower hshape hclosed (hB.cost_le node edge.target) he hav rfl ?_ hlt⟩
      unfold unreached
      omega
    · rw [if_neg hlt]
      refine ⟨_, rfl, h.skip fun _ => ⟨?_, not_lt.1 hlt⟩⟩
      unfold Search.Reached unreached
      omega
  · simp only [hav, Bool.false_eq_true, not_false_eq_true, if_true]
    exact ⟨_, rfl, h.skip fun hAv => absurd ((hshape.av_iff he).1 hAv) hav⟩

/-- The edges of the nodes still to settle, and the entries still to pop. -/
def searchMeasure (graph : Assignment) (n m : Nat) (settled : List Nat) (search : Search) : Nat :=
  ∑ u ∈ (Finset.range (n + m + 2)).filter (· ∉ settled), (graph.edges u).length + search.queue.length

theorem searchMeasure_settle (graph : Assignment) {node : Nat} (hnode : node < n + m + 2) (hnot : node ∉ settled) :
    ∑ u ∈ (Finset.range (n + m + 2)).filter (· ∉ settled), (graph.edges u).length =
      ∑ u ∈ (Finset.range (n + m + 2)).filter (· ∉ node :: settled), (graph.edges u).length +
        (graph.edges node).length := by
  have hsplit : (Finset.range (n + m + 2)).filter (· ∉ settled) =
      insert node ((Finset.range (n + m + 2)).filter (· ∉ node :: settled)) := by
    ext u
    simp only [Finset.mem_filter, Finset.mem_range, Finset.mem_insert, List.mem_cons, not_or]
    by_cases hu : u = node <;> simp [hu, hnode, hnot]
  rw [hsplit, Finset.sum_insert (by simp), Nat.add_comm]

theorem searchTurn_spec (hB : Bounds n m w unit slack) (hbound : ∀ v, |graph.potentials v| ≤ slack)
    (hshape : Shape n m w adj graph) (hclosed : Closed n m w graph R)
    (h : SearchInv n m w unit graph R settled (fun _ _ => False) search) :
    (∃ settled' search', graph.searchTurn search = pure (.next search') ∧
        SearchInv n m w unit graph R settled' (fun _ _ => False) search' ∧
        searchMeasure graph n m settled' search' < searchMeasure graph n m settled search) ∨
      (graph.searchTurn search = pure (.done search) ∧ search.queue = []) := by
  have hsmall := smallest_spec search.queue
  unfold searchTurn
  cases hs : smallest search.queue with
  | none =>
    rw [hs] at hsmall
    exact .inr ⟨rfl, hsmall⟩
  | some entry =>
    obtain ⟨cost, node⟩ := entry
    rw [hs] at hsmall
    obtain ⟨hmem, hmin⟩ := hsmall
    have hlen := List.length_erase_of_mem hmem
    have hpos := List.length_pos_of_mem hmem
    left
    by_cases hcost : cost = search.distance node
    · obtain ⟨hreach, -, -⟩ := h.queue_ge _ hmem
      have hnode := h.node node hreach
      obtain ⟨hnot, hsettled⟩ := h.settle hB.unit_nonneg hmem hmin hcost
      have hstart : RelaxInv n m w unit graph R settled node cost (search.queue.erase (cost, node)).length []
          { search with queue := search.queue.erase (cost, node) } := by
        refine ⟨{ hsettled with relaxed := fun u hu v hav ht => ?_ }, hcost.symm, fun u hu => ?_, ?_, ?_⟩
        · exact hsettled.relaxed u hu v hav fun hun => ht ⟨hun, by simp⟩
        · rcases List.mem_cons.1 hu with rfl | hu
          · exact hcost.symm.le
          · exact h.queue_le u hu _ hmem
        · rw [hcost]
          exact hnode.2.2.2
        · simp
      obtain ⟨search', hrelax, hinv⟩ := foldlM_fallible (l := (graph.edges node).zipIdx)
        (f := graph.relaxEdge node cost)
        (RelaxInv n m w unit graph R settled node cost (search.queue.erase (cost, node)).length)
        (fun pre indexed post s hl hs => by
          obtain ⟨edge, i⟩ := indexed
          have he : (edge, i) ∈ (graph.edges node).zipIdx := hl ▸ by simp
          exact relaxEdge_spec hB hbound hshape hclosed (List.mem_zipIdx_iff_getElem?.1 he) hs) hstart
      refine ⟨node :: settled, search', ?_, { hinv.inv with relaxed := fun u hu v hav _ => ?_ }, ?_⟩
      · simp only [hcost, ne_eq, not_true_eq_false, if_false]
        simp only [relaxNeighbors, ← hcost, hrelax, pure_bind]
      · -- every edge of the node was passed
        refine hinv.inv.relaxed u hu v hav fun ht => ?_
        obtain ⟨rfl, hpassed⟩ := ht
        obtain ⟨edge, hedge, rfl, -⟩ := hav
        obtain ⟨i, hi⟩ := List.mem_iff_getElem?.1 hedge
        exact hpassed (edge, i) (List.mem_zipIdx_iff_getElem?.2 hi) rfl
      · have hpushes := hinv.pushes
        have hsum := searchMeasure_settle graph hnode.1 hnot
        simp only [List.length_zipIdx] at hpushes
        unfold searchMeasure
        omega
    · refine ⟨settled, _, by simp only [ne_eq, hcost, not_false_eq_true, if_true], h.drop hcost, ?_⟩
      unfold searchMeasure
      simp only
      omega

theorem runSearch_spec (hB : Bounds n m w unit slack) (hbound : ∀ v, |graph.potentials v| ≤ slack)
    (hshape : Shape n m w adj graph) (hclosed : Closed n m w graph R) (hR : n + m ∈ R)
    (hzero : graph.potentials (n + m) = 0) :
    ∃ search settled, graph.runSearch = pure search ∧
      SearchInv n m w unit graph R settled (fun _ _ => False) search ∧ search.queue = [] := by
  obtain ⟨search, hs, settled, hinv, hq⟩ := loopFallible_ghost graph.searchTurn
    (fun settled search => SearchInv n m w unit graph R settled (fun _ _ => False) search)
    (searchMeasure graph n m)
    (fun search => ∃ settled, SearchInv n m w unit graph R settled (fun _ _ => False) search ∧ search.queue = [])
    (fun settled search h => (searchTurn_spec hB hbound hshape hclosed h).imp id
      fun ⟨hdone, hq⟩ => ⟨search, hdone, settled, h, hq⟩)
    (graph.edgeCount + 2) [] _ (searchInv_start hR hzero) (by
      simp [searchMeasure, edgeCount, hshape.sink_eq])
  refine ⟨search, settled, ?_, hinv, hq⟩
  rw [runSearch, hshape.source_eq]
  exact hs

end

end Assignment

end Rumoca.Structural
