import Rumoca.Structural.AssignmentSearch
/-!
# Building the residual graph

`Built A` describes a graph under construction by the forward edges `A`
added so far. `assignmentGraph_spec`: the finished graph has the `Shape` of
the signature rows, with the forward edges available and every potential
zero.
-/

namespace Rumoca.Structural

open Rumoca.Lib

/-- The order of `column` in a signature row, zero where it does not occur. -/
def orderAt (entries : List SignatureEntry) (column : Nat) : Nat :=
  ((entries.find? fun entry => entry.column = column).map (·.order)).getD 0

def signatureRow (rows : List (List SignatureEntry)) (row : Nat) : List SignatureEntry := (rows[row]?).getD []

/-- Rows of distinct columns below `columns`. -/
structure Signature (rows : List (List SignatureEntry)) (columns : Nat) : Prop where
  column_lt : ∀ row, ∀ entry ∈ signatureRow rows row, entry.column < columns
  distinct : ∀ row, ((signatureRow rows row).map (·.column)).Nodup

theorem orderAt_eq {entries : List SignatureEntry} (hnd : (entries.map (·.column)).Nodup) {entry : SignatureEntry}
    (h : entry ∈ entries) : orderAt entries entry.column = entry.order := by
  induction entries with
  | nil => cases h
  | cons first rest ih =>
    rw [List.map_cons, List.nodup_cons] at hnd
    unfold orderAt
    rcases List.mem_cons.1 h with rfl | h
    · simp
    · have hne : first.column ≠ entry.column := fun heq =>
        hnd.1 (heq ▸ List.mem_map_of_mem (f := (·.column)) h)
      rw [List.find?_cons_of_neg (by simpa using hne)]
      exact ih hnd.2 h

namespace Assignment

/-- A graph under construction: its edges are `A` and their reverses. -/
structure Built (A : Nat → Nat → Int → Prop) (graph : Assignment) : Prop where
  pair : ∀ (u i : Nat) edge, (graph.edges u)[i]? = some edge → ∃ back, (graph.edges edge.target)[edge.reverse]? =
    some back ∧ back.target = u ∧ back.reverse = i ∧ back.available = !edge.available
  unique : ∀ (u i j : Nat) edge other, (graph.edges u)[i]? = some edge → (graph.edges u)[j]? = some other →
    edge.target = other.target → i = j
  mem : ∀ u, ∀ edge ∈ graph.edges u, (A u edge.target edge.cost ∧ edge.available = true) ∨
    (A edge.target u (-edge.cost) ∧ edge.available = false)
  has : ∀ u v c, A u v c → (∃ edge ∈ graph.edges u, edge.target = v ∧ edge.available = true) ∧
    ∃ edge ∈ graph.edges v, edge.target = u

variable {A : Nat → Nat → Int → Prop} {graph : Assignment}

theorem addEdge_get (graph : Assignment) {u v : Nat} (huv : u ≠ v) (c : Int) (x i : Nat) (edge : Edge) :
    ((graph.addEdge u v c).edges x)[i]? = some edge ↔ (graph.edges x)[i]? = some edge ∨
      (x = u ∧ i = (graph.edges u).length ∧ edge = ⟨v, (graph.edges v).length, c, true⟩) ∨
      (x = v ∧ i = (graph.edges v).length ∧ edge = ⟨u, (graph.edges u).length, -c, false⟩) := by
  have happ : ∀ (l : List Edge) (a : Edge), (l ++ [a])[i]? = some edge ↔ l[i]? = some edge ∨ (i = l.length ∧ edge = a) := by
    intro l a
    rcases Nat.lt_trichotomy i l.length with hlt | rfl | hgt
    · rw [List.getElem?_append_left hlt]
      simp [Nat.ne_of_lt hlt]
    · simp [eq_comm]
    · rw [List.getElem?_eq_none (by simp; omega), List.getElem?_eq_none (by omega)]
      simp [Nat.ne_of_gt hgt]
  unfold addEdge
  by_cases hxv : x = v
  · subst hxv
    simp only [Function.update_self, Function.update_of_ne (Ne.symm huv), happ]
    simp [Ne.symm huv]
  · by_cases hxu : x = u
    · subst hxu
      simp only [Function.update_of_ne hxv, Function.update_self, happ]
      simp [hxv]
    · simp [hxu, hxv]

theorem Built.addEdge (h : Built A graph) {u v : Nat} (huv : u ≠ v) (c : Int)
    (hfresh : ∀ d, ¬ A u v d ∧ ¬ A v u d) :
    Built (fun a b d => A a b d ∨ (a = u ∧ b = v ∧ d = c)) (graph.addEdge u v c) := by
  have hget := addEdge_get graph huv c
  have hu : ∀ (i : Nat) edge, (graph.edges u)[i]? = some edge → edge.target ≠ v := by
    intro i edge he ht
    rcases h.mem u edge (List.mem_of_getElem? he) with ⟨hA, -⟩ | ⟨hA, -⟩
    · exact (hfresh _).1 (ht ▸ hA)
    · exact (hfresh _).2 (ht ▸ hA)
  have hv : ∀ (i : Nat) edge, (graph.edges v)[i]? = some edge → edge.target ≠ u := by
    intro i edge he ht
    rcases h.mem v edge (List.mem_of_getElem? he) with ⟨hA, -⟩ | ⟨hA, -⟩
    · exact (hfresh _).2 (ht ▸ hA)
    · exact (hfresh _).1 (ht ▸ hA)
  refine ⟨fun x i edge he => ?_, fun x i j edge other he ho ht => ?_, fun x edge he => ?_, fun a b d hA => ?_⟩
  · rcases (hget x i edge).1 he with he | ⟨rfl, rfl, rfl⟩ | ⟨rfl, rfl, rfl⟩
    · obtain ⟨back, hback, hrest⟩ := h.pair x i edge he
      exact ⟨back, (hget _ _ back).2 (.inl hback), hrest⟩
    · exact ⟨_, (hget _ _ _).2 (.inr (.inr ⟨rfl, rfl, rfl⟩)), rfl, rfl, rfl⟩
    · exact ⟨_, (hget _ _ _).2 (.inr (.inl ⟨rfl, rfl, rfl⟩)), rfl, rfl, rfl⟩
  · rcases (hget x i edge).1 he with hold | ⟨rfl, rfl, rfl⟩ | ⟨rfl, rfl, rfl⟩ <;>
      rcases (hget _ j other).1 ho with hold' | ⟨hx, rfl, rfl⟩ | ⟨hx, rfl, rfl⟩
    · exact h.unique x i j edge other hold hold' ht
    · subst hx
      exact absurd ht (hu i edge hold)
    · subst hx
      exact absurd ht (hv i edge hold)
    · exact absurd ht.symm (hu j other hold')
    · rfl
    · exact absurd hx huv
    · exact absurd ht.symm (hv j other hold')
    · exact absurd hx.symm huv
    · rfl
  · obtain ⟨i, hi⟩ := List.mem_iff_getElem?.1 he
    rcases (hget x i edge).1 hi with hold | ⟨rfl, -, rfl⟩ | ⟨rfl, -, rfl⟩
    · exact (h.mem x edge (List.mem_of_getElem? hold)).imp (fun hA => ⟨.inl hA.1, hA.2⟩) fun hA => ⟨.inl hA.1, hA.2⟩
    · exact .inl ⟨.inr ⟨rfl, rfl, rfl⟩, rfl⟩
    · exact .inr ⟨.inr ⟨rfl, rfl, by simp⟩, rfl⟩
  · rcases hA with hA | ⟨rfl, rfl, rfl⟩
    · obtain ⟨⟨e, he, hrest⟩, e', he', hrest'⟩ := h.has a b d hA
      obtain ⟨i, hi⟩ := List.mem_iff_getElem?.1 he
      obtain ⟨i', hi'⟩ := List.mem_iff_getElem?.1 he'
      exact ⟨⟨e, List.mem_of_getElem? ((hget a i e).2 (.inl hi)), hrest⟩,
        e', List.mem_of_getElem? ((hget b i' e').2 (.inl hi')), hrest'⟩
    · exact ⟨⟨_, List.mem_of_getElem? ((hget _ _ _).2 (.inr (.inl ⟨rfl, rfl, rfl⟩))), rfl, rfl⟩,
        _, List.mem_of_getElem? ((hget _ _ _).2 (.inr (.inr ⟨rfl, rfl, rfl⟩))), rfl⟩

theorem Built.congr {A' : Nat → Nat → Int → Prop} (h : Built A graph) (hA : ∀ u v c, A u v c ↔ A' u v c) :
    Built A' graph := by
  have heq : A = A' := funext fun u => funext fun v => funext fun c => propext (hA u v c)
  exact heq ▸ h

/-! ## The passes -/

section
variable {rows : List (List SignatureEntry)} {n m maximum k : Nat}

/-- The edges after the source edges of the first `k` rows, the row edges of
`entry` and the sink edges of the first `j` columns. -/
def Forward (n m maximum k : Nat) (entry : Nat → SignatureEntry → Prop) (j : Nat) (u v : Nat) (c : Int) : Prop :=
  (u = n + m ∧ v < k ∧ c = 0) ∨ (u < n ∧ ∃ e, entry u e ∧ v = n + e.column ∧ c = maximum - e.order) ∨
    (n ≤ u ∧ u < n + j ∧ v = n + m + 1 ∧ c = 0)

/-- A graph under construction, with its fixed fields. -/
structure Growing (n m : Nat) (A : Nat → Nat → Int → Prop) (graph : Assignment) : Prop extends Built A graph where
  potentials : graph.potentials = fun _ => 0
  source : graph.source = n + m
  sink : graph.sink = n + m + 1

theorem Growing.addEdge {n m : Nat} (h : Growing n m A graph) {u v : Nat} (huv : u ≠ v) (c : Int)
    (hfresh : ∀ d, ¬ A u v d ∧ ¬ A v u d) {A' : Nat → Nat → Int → Prop}
    (hA : ∀ a b d, (A a b d ∨ (a = u ∧ b = v ∧ d = c)) ↔ A' a b d) : Growing n m A' (graph.addEdge u v c) :=
  ⟨(h.toBuilt.addEdge huv c hfresh).congr hA, h.potentials, h.source, h.sink⟩

/-- The entries of the rows before `k`, and those of `done` in row `k`. -/
def Placed (rows : List (List SignatureEntry)) (k : Nat) (done : List SignatureEntry) (row : Nat)
    (entry : SignatureEntry) : Prop := (row < k ∧ entry ∈ signatureRow rows row) ∨ (row = k ∧ entry ∈ done)

theorem addRow_spec (hsig : Signature rows m) (hk : k < rows.length)
    (h : Growing rows.length m (Forward rows.length m maximum k (Placed rows k []) 0) graph) :
    ∃ graph', addRow rows m maximum graph (signatureRow rows k, k) = pure graph' ∧
      Growing rows.length m (Forward rows.length m maximum (k + 1) (Placed rows (k + 1) []) 0) graph' := by
  set n := rows.length with hn
  have hstart : Growing n m (Forward n m maximum (k + 1) (Placed rows k []) 0) (graph.addEdge graph.source k 0) := by
    rw [h.source]
    refine h.addEdge (by omega) 0 (fun d => ?_) fun a b d => ?_
    · unfold Forward Placed
      grind
    · unfold Forward
      grind
  refine foldlM_fallible (fun done graph => Growing n m (Forward n m maximum (k + 1) (Placed rows k done) 0) graph)
    (fun done entry rest graph heq hinv => ?_) hstart |>.imp fun graph' hg => ⟨hg.1, ?_⟩
  · have hmem : entry ∈ signatureRow rows k := by rw [heq]; simp
    have hcol := hsig.column_lt k entry hmem
    have hdone : ∀ e ∈ done, e.column ≠ entry.column := by
      have hnd := hsig.distinct k
      rw [heq, List.map_append, List.map_cons] at hnd
      have hdis := (List.nodup_append.1 hnd).2.2
      exact fun e he hc => hdis _ (List.mem_map_of_mem he) _ (by simp) hc
    refine ⟨_, if_neg (by omega), hinv.addEdge (by omega) _ (fun d => ?_) fun a b d => ?_⟩
    · unfold Forward Placed
      grind
    · unfold Forward Placed
      grind
  · refine ⟨hg.2.toBuilt.congr fun u v c => ?_, hg.2.potentials, hg.2.source, hg.2.sink⟩
    unfold Forward Placed
    grind

def Entry (rows : List (List SignatureEntry)) (row : Nat) (entry : SignatureEntry) : Prop :=
  entry ∈ signatureRow rows row

theorem Entry.lt {row : Nat} {entry : SignatureEntry} (h : Entry rows row entry) : row < rows.length := by
  by_contra hge
  unfold Entry signatureRow at h
  rw [List.getElem?_eq_none (by omega)] at h
  cases h

theorem addRows_spec (maximum : Nat) (hsig : Signature rows m) :
    ∃ graph, rows.zipIdx.foldlM (addRow rows m maximum) ⟨fun _ => [], fun _ => 0, rows.length + m, rows.length + m + 1⟩ =
        pure graph ∧ Growing rows.length m (Forward rows.length m maximum rows.length (Entry rows) 0) graph := by
  have hstart : Growing rows.length m (Forward rows.length m maximum 0 (Placed rows 0 []) 0)
      ⟨fun _ => [], fun _ => 0, rows.length + m, rows.length + m + 1⟩ := by
    refine ⟨⟨?_, ?_, ?_, ?_⟩, rfl, rfl, rfl⟩
    · simp
    · simp
    · simp
    · unfold Forward Placed
      grind
  refine foldlM_fallible (fun done graph => Growing rows.length m
    (Forward rows.length m maximum done.length (Placed rows done.length []) 0) graph)
    (fun done row rest graph heq hinv => ?_) hstart |>.imp fun graph hg => ⟨hg.1, ?_⟩
  · have hget : rows.zipIdx[done.length]? = some row := by rw [heq]; simp
    rw [List.getElem?_zipIdx, Option.map_eq_some_iff] at hget
    obtain ⟨entries, hentries, hrow⟩ := hget
    have hk : done.length < rows.length := (List.getElem?_eq_some_iff.1 hentries).1
    have hsrow : row = (signatureRow rows done.length, done.length) := by
      rw [← hrow, signatureRow, hentries]
      simp
    rw [hsrow, List.length_append, List.length_singleton]
    exact addRow_spec hsig hk hinv
  · rw [List.length_zipIdx] at hg
    refine ⟨hg.2.toBuilt.congr fun u v c => ?_, hg.2.potentials, hg.2.source, hg.2.sink⟩
    have hlt : ∀ row entry, Entry rows row entry → row < rows.length := fun row entry h => h.lt
    unfold Forward Placed
    unfold Entry at *
    grind

theorem addSinks_spec
    (h : Growing rows.length m (Forward rows.length m maximum rows.length (Entry rows) 0) graph) :
    Growing rows.length m (Forward rows.length m maximum rows.length (Entry rows) m)
        ((List.range m).foldl (fun graph column => graph.addEdge (rows.length + column) (rows.length + m + 1) 0) graph) ∧
      ∀ c, IsColumn rows.length m c → ∃ edge, (((List.range m).foldl (fun graph column =>
        graph.addEdge (rows.length + column) (rows.length + m + 1) 0) graph).edges c).getLast? = some edge ∧
          edge.target = rows.length + m + 1 := by
  set n := rows.length with hn
  have key := foldl_inv (f := fun graph column => addEdge graph (n + column) (n + m + 1) 0) (l := List.range m)
    (fun done graph => Growing n m (Forward n m maximum n (Entry rows) done.length) graph ∧
      ∀ c, n ≤ c ∧ c < n + done.length → ∃ edge, (graph.edges c).getLast? = some edge ∧ edge.target = n + m + 1)
    (fun done column rest graph heq hinv => ?_) (s := graph) ⟨h, fun c hc => ?_⟩
  · rw [List.length_range] at key
    exact ⟨key.1, fun c hc => key.2 c hc⟩
  · obtain ⟨hcolumn, hlt⟩ : column = done.length ∧ done.length < m := by
      have hget : (List.range m)[done.length]? = some column := by rw [heq]; simp
      rw [List.getElem?_eq_some_iff] at hget
      obtain ⟨hlt, hget⟩ := hget
      rw [List.getElem_range] at hget
      rw [List.length_range] at hlt
      exact ⟨hget.symm, hlt⟩
    subst hcolumn
    refine ⟨?_, fun c hc => ?_⟩
    · rw [List.length_append, List.length_singleton]
      refine hinv.1.addEdge (by omega) 0 (fun d => ?_) fun a b d => ?_
      · unfold Forward
        grind
      · unfold Forward
        grind
    · have hne : c ≠ n + m + 1 := by
        rw [List.length_append, List.length_singleton] at hc
        omega
      simp only [addEdge, Function.update_of_ne hne]
      by_cases hcd : c = n + done.length
      · subst hcd
        simp [Function.update_self]
      · rw [Function.update_of_ne hcd]
        refine hinv.2 c ⟨hc.1, ?_⟩
        rw [List.length_append, List.length_singleton] at hc
        omega
  · rw [List.length_nil] at hc
    omega

/-! ## The finished graph -/

instance (n m c : Nat) : Decidable (IsColumn n m c) := inferInstanceAs (Decidable (_ ∧ _))

def cost (rows : List (List SignatureEntry)) (m maximum u v : Nat) : Int :=
  let n := rows.length
  if u < n ∧ IsColumn n m v then maximum - orderAt (signatureRow rows u) (v - n)
  else if v < n ∧ IsColumn n m u then orderAt (signatureRow rows v) (u - n) - maximum
  else 0

theorem cost_neg (rows : List (List SignatureEntry)) (m maximum u v : Nat) :
    cost rows m maximum v u = -cost rows m maximum u v := by
  unfold cost IsColumn
  grind

theorem cost_forward (hsig : Signature rows m) {u v : Nat} {c : Int}
    (h : Forward rows.length m maximum rows.length (Entry rows) m u v c) : c = cost rows m maximum u v := by
  rcases h with ⟨rfl, hv, rfl⟩ | ⟨hu, e, he, rfl, rfl⟩ | ⟨h1, h2, rfl, rfl⟩
  · unfold cost IsColumn
    grind
  · have hcol := hsig.column_lt u e he
    unfold cost
    rw [if_pos ⟨hu, by unfold IsColumn; omega⟩, Nat.add_sub_cancel_left, orderAt_eq (hsig.distinct u) he]
  · unfold cost IsColumn
    grind

/-- An edge between two nodes, in one direction or the other. -/
def Adjacent (rows : List (List SignatureEntry)) (m maximum u v : Nat) : Prop :=
  ∃ c, Forward rows.length m maximum rows.length (Entry rows) m u v c ∨
    Forward rows.length m maximum rows.length (Entry rows) m v u c

def maximumOrder (rows : List (List SignatureEntry)) : Nat := (rows.flatten.map (·.order)).foldl max 0

theorem assignmentGraph_spec (hsig : Signature rows m) (hsize : rows.length + m + 2 < usizeLimit) :
    ∃ graph, assignmentGraph rows m = pure graph ∧
      Shape rows.length m (cost rows m (maximumOrder rows)) (Adjacent rows m (maximumOrder rows)) graph ∧
      graph.potentials = (fun _ => 0) ∧
      ∀ u v, Av graph u v ↔ ∃ c, Forward rows.length m (maximumOrder rows) rows.length (Entry rows) m u v c := by
  obtain ⟨graph, hrows, hgraph⟩ := addRows_spec (maximumOrder rows) hsig
  obtain ⟨hgrow, hlast⟩ := addSinks_spec hgraph
  set final := (List.range m).foldl (fun graph column => graph.addEdge (rows.length + column) (rows.length + m + 1) 0)
    graph with hfinal
  refine ⟨final, ?_, ⟨hgrow.source, hgrow.sink, hgrow.pair, hgrow.unique, fun u edge he => ?_, fun u v => ?_, hlast⟩,
    hgrow.potentials, fun u v => ?_⟩
  · have hsource : checkedUsize (rows.length + m) = some (rows.length + m) := checkedUsize_eq_some.2 ⟨rfl, by omega⟩
    have hsink : checkedUsize (rows.length + m + 1) = some (rows.length + m + 1) := checkedUsize_eq_some.2 ⟨rfl, by omega⟩
    have hnodes : checkedUsize (rows.length + m + 1 + 1) = some (rows.length + m + 2) :=
      checkedUsize_eq_some.2 ⟨rfl, by omega⟩
    unfold maximumOrder at hrows
    simp only [assignmentGraph, hsource, hsink, hnodes, orError_some, pure_bind, hrows]
    rfl
  · rcases hgrow.mem u edge he with ⟨hA, -⟩ | ⟨hA, -⟩
    · exact cost_forward hsig hA
    · rw [cost_neg rows m _ edge.target u, ← cost_forward hsig hA, Int.neg_neg]
  · constructor
    · rintro ⟨c, hA | hA⟩
      · obtain ⟨⟨edge, he, ht, -⟩, -⟩ := hgrow.has u v c hA
        exact ⟨edge, he, ht⟩
      · exact (hgrow.has v u c hA).2
    · rintro ⟨edge, he, rfl⟩
      rcases hgrow.mem u edge he with ⟨hA, -⟩ | ⟨hA, -⟩
      · exact ⟨_, .inl hA⟩
      · exact ⟨_, .inr hA⟩
  · constructor
    · rintro ⟨edge, he, rfl, hav⟩
      rcases hgrow.mem u edge he with ⟨hA, -⟩ | ⟨-, hnot⟩
      · exact ⟨_, hA⟩
      · rw [hav] at hnot
        cases hnot
    · rintro ⟨c, hA⟩
      exact (hgrow.has u v c hA).1

theorem le_foldl_max (l : List Nat) (start : Nat) : start ≤ l.foldl max start ∧ ∀ x ∈ l, x ≤ l.foldl max start := by
  induction l generalizing start with
  | nil => simp
  | cons a l ih =>
    obtain ⟨h1, h2⟩ := ih (max start a)
    refine ⟨(le_max_left _ _).trans h1, fun x hx => ?_⟩
    rcases List.mem_cons.1 hx with rfl | hx
    · exact (le_max_right _ _).trans h1
    · exact h2 x hx

theorem Entry.order_le {row : Nat} {entry : SignatureEntry} (h : Entry rows row entry) :
    entry.order ≤ maximumOrder rows := by
  refine (le_foldl_max _ 0).2 _ (List.mem_map_of_mem (List.mem_flatten.2 ⟨signatureRow rows row, ?_, h⟩))
  have hlt := h.lt
  simp only [signatureRow, List.getElem?_eq_getElem hlt, Option.getD_some]
  exact List.getElem_mem hlt

theorem orderAt_le (rows : List (List SignatureEntry)) (row column : Nat) : orderAt (signatureRow rows row) column ≤ maximumOrder rows := by
  unfold orderAt
  cases hfind : (signatureRow rows row).find? fun entry => entry.column = column with
  | none => exact Nat.zero_le _
  | some entry => exact Entry.order_le (List.mem_of_find?_eq_some hfind)

theorem cost_bounds (slack : Int) (hnodes : (maximumOrder rows : Int) * (rows.length + m + 2 : Nat) ≤ slack)
    (hfits : 2 * slack + maximumOrder rows + 1 < i64Limit) :
    Bounds rows.length m (cost rows m (maximumOrder rows)) (maximumOrder rows) slack := by
  refine ⟨Int.natCast_nonneg _, fun u v => ?_, hnodes, hfits⟩
  have h1 := orderAt_le rows u (v - rows.length)
  have h2 := orderAt_le rows v (u - rows.length)
  simp only [cost, abs_le]
  split
  · omega
  · split <;> omega

theorem assignmentGraph_residual (hsig : Signature rows m) (hsize : rows.length + m + 2 < usizeLimit) (slack : Int)
    (hslack : 0 ≤ slack) : ∃ graph, assignmentGraph rows m = pure graph ∧
      Residual rows.length m (cost rows m (maximumOrder rows)) (Adjacent rows m (maximumOrder rows)) slack graph ∧
      ∀ row, Av graph (rows.length + m) row ↔ row < rows.length := by
  obtain ⟨graph, hgraph, hshape, hpot, hav⟩ := assignmentGraph_spec hsig hsize
  have hcol : ∀ row entry, Entry rows row entry → entry.column < m := fun row entry h => hsig.column_lt row entry h
  refine ⟨graph, hgraph, ⟨hshape, ⟨?_, ?_, ?_, ?_, ?_, ?_⟩, ?_, ?_, ?_⟩, ?_⟩
  · intro u v h
    obtain ⟨c, h⟩ := (hav u v).1 h
    unfold Link IsColumn
    unfold Forward at h
    grind
  · intro u v h h'
    obtain ⟨c, h⟩ := (hav u v).1 h
    obtain ⟨c', h'⟩ := (hav v u).1 h'
    unfold Forward at h h'
    grind
  · intro c r r' hc hr hr' h
    obtain ⟨d, h⟩ := (hav c r).1 h
    unfold Forward IsColumn at *
    grind
  · intro r c c' hr _ hc hc' h
    obtain ⟨d, h⟩ := (hav c r).1 h
    unfold Forward IsColumn at *
    grind
  · refine fun r hr _ => iff_of_true ((hav _ _).2 ⟨0, .inl ⟨rfl, hr, rfl⟩⟩) fun c hc h => ?_
    obtain ⟨d, h⟩ := (hav c r).1 h
    unfold Forward IsColumn at *
    grind
  · refine fun c hc _ => iff_of_true ((hav _ _).2 ⟨0, .inr (.inr ⟨hc.1, hc.2, rfl, rfl⟩)⟩) fun r hr h => ?_
    obtain ⟨d, h⟩ := (hav c r).1 h
    unfold Forward IsColumn at *
    grind
  · refine ⟨fun _ => 0, Set.univ, trivial, fun v _ => by rw [hpot], fun u v h => ⟨?_, fun _ => trivial⟩⟩
    obtain ⟨c, h⟩ := (hav u v).1 h
    simp only [← cost_forward hsig h, add_zero, sub_zero]
    rcases h with ⟨-, -, rfl⟩ | ⟨-, e, he, -, rfl⟩ | ⟨-, -, -, rfl⟩
    · omega
    · have := he.order_le
      omega
    · omega
  · intro v
    rw [hpot]
    simpa using hslack
  · rw [hpot]
  · intro row
    constructor
    · intro h
      obtain ⟨c, h⟩ := (hav _ _).1 h
      unfold Forward at h
      grind
    · exact fun h => (hav _ _).2 ⟨0, .inl ⟨rfl, h, rfl⟩⟩

end

end Assignment

end Rumoca.Structural
