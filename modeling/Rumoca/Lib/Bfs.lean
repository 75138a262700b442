import Rumoca.Lib.Loop
import Mathlib.Data.List.Basic
import Mathlib.Data.Finset.Card
import Mathlib.Logic.Function.Basic
import Mathlib.Logic.Relation
/-!
# Breadth-first search

A queue of discovered nodes and a map from the nodes seen to a value. One
turn takes the front node and discovers its neighbours that are new. The
search ends, takes exactly what its seeds reach, and when the values are
depths they are the shortest distances.
-/

namespace Rumoca.Lib

/-! ## Walks -/

section
variable {α : Type}

def Reach (adj : α → List α) : α → α → Prop := Relation.ReflTransGen fun x y => y ∈ adj x

/-- A walk of `k` steps along neighbours. -/
inductive Walk (adj : α → List α) (x : α) : Nat → α → Prop where
  | refl : Walk adj x 0 x
  | tail {k : Nat} {y z : α} : Walk adj x k y → z ∈ adj y → Walk adj x (k + 1) z

theorem Reach.walk {adj : α → List α} {x y : α} (h : Reach adj x y) : ∃ k, Walk adj x k y := by
  induction h with
  | refl => exact ⟨0, .refl⟩
  | tail _ hz ih =>
    obtain ⟨k, hk⟩ := ih
    exact ⟨k + 1, hk.tail hz⟩

theorem Walk.reach {adj : α → List α} {x y : α} {k : Nat} (h : Walk adj x k y) : Reach adj x y := by
  induction h with
  | refl => exact .refl
  | tail _ hz ih => exact ih.tail hz

/-- `d` is the length of a shortest walk from `x` to `y`. -/
def IsDistance (adj : α → List α) (x y : α) (d : Nat) : Prop :=
  Walk adj x d y ∧ ∀ k, Walk adj x k y → d ≤ k

theorem IsDistance.unique {adj : α → List α} {x y : α} {d e : Nat} (hd : IsDistance adj x y d)
    (he : IsDistance adj x y e) : d = e :=
  Nat.le_antisymm (hd.2 e he.1) (he.2 d hd.1)

end

/-! ## The search -/

variable {α β : Type} [DecidableEq α]

/-- The nodes discovered and not yet taken, the value of every node seen, and the nodes taken. -/
structure Search (α β : Type) where
  queue : List α
  seen : α → Option β
  taken : List α

namespace Search

def discover (value : β) (s : Search α β) (node : α) : Search α β :=
  if (s.seen node).isSome then s
  else { s with queue := s.queue ++ [node], seen := Function.update s.seen node (some value) }

/-- Take the front of the queue. A queued node without a value is a panic. -/
def turn (adj : α → List α) (next : β → β) (s : Search α β) : Option (Ctl (Search α β) (Search α β)) :=
  match s.queue with
  | [] => some (.done s)
  | current :: rest =>
    match s.seen current with
    | none => none
    | some value =>
      some (.next ((adj current).foldl (discover (next value)) { s with queue := rest, taken := s.taken ++ [current] }))

def run (adj : α → List α) (next : β → β) (fuel : Nat) (s : Search α β) : Option (Search α β) :=
  loop (turn adj next) fuel s

def start (seen : α → Option β) (value : β) (seeds : List α) : Search α β :=
  seeds.foldl (fun s seed => { s with queue := s.queue ++ [seed], seen := Function.update s.seen seed (some value) })
    ⟨[], seen, []⟩

theorem start_eq (seen : α → Option β) (value : β) (seeds : List α) :
    start seen value seeds = ⟨seeds, fun x => if x ∈ seeds then some value else seen x, []⟩ := by
  have key := foldl_inv (l := seeds) (s := (⟨[], seen, []⟩ : Search α β))
    (f := fun s seed => { s with queue := s.queue ++ [seed], seen := Function.update s.seen seed (some value) })
    (fun pre s => s = ⟨pre, fun x => if x ∈ pre then some value else seen x, []⟩)
    (fun pre a post s _ hs => by
      subst hs
      simp only [mk.injEq, true_and, and_true]
      funext x
      by_cases hx : x = a
      · subst hx
        simp
      · simp [hx])
    (by simp)
  exact key

theorem foldl_discover (value : β) (nodes : List α) (s : Search α β) :
    ∃ found : List α, found.Nodup ∧ (∀ x, x ∈ found ↔ x ∈ nodes ∧ s.seen x = none) ∧
      nodes.foldl (discover value) s =
        ⟨s.queue ++ found, fun x => if x ∈ found then some value else s.seen x, s.taken⟩ := by
  induction nodes generalizing s with
  | nil => exact ⟨[], List.nodup_nil, by simp, by simp⟩
  | cons node nodes ih =>
    rw [List.foldl_cons]
    cases hn : s.seen node with
    | some v =>
      have hs : discover value s node = s := by rw [discover, hn]; rfl
      obtain ⟨found, hnodup, hmem, hfold⟩ := ih s
      refine ⟨found, hnodup, fun x => ?_, by rw [hs, hfold]⟩
      rw [hmem, List.mem_cons]
      constructor
      · exact fun h => ⟨.inr h.1, h.2⟩
      · rintro ⟨rfl | hx, hseen⟩
        · rw [hn] at hseen
          cases hseen
        · exact ⟨hx, hseen⟩
    | none =>
      have hs : discover value s node =
          { s with queue := s.queue ++ [node], seen := Function.update s.seen node (some value) } := by
        rw [discover, hn]
        rfl
      obtain ⟨found, hnodup, hmem, hfold⟩ := ih (discover value s node)
      rw [hs] at hmem hfold
      have hnot : node ∉ found := fun h => by
        have := ((hmem node).1 h).2
        simp at this
      refine ⟨node :: found, List.nodup_cons.2 ⟨hnot, hnodup⟩, fun x => ?_, ?_⟩
      · rw [List.mem_cons, List.mem_cons, hmem]
        by_cases hx : x = node
        · subst hx
          simp [hn]
        · simp [hx]
      · rw [hs, hfold]
        simp only [mk.injEq, List.append_assoc, List.singleton_append, true_and, and_true]
        funext x
        by_cases hx : x = node
        · subst hx
          simp
        · simp [hx]

theorem turn_cons {adj : α → List α} {next : β → β} {s : Search α β} {current : α} {rest : List α} {value : β}
    (hq : s.queue = current :: rest) (hv : s.seen current = some value) :
    ∃ found : List α, found.Nodup ∧ (∀ x, x ∈ found ↔ x ∈ adj current ∧ s.seen x = none) ∧
      turn adj next s = some (.next ⟨rest ++ found, fun x => if x ∈ found then some (next value) else s.seen x,
        s.taken ++ [current]⟩) := by
  obtain ⟨found, hnodup, hmem, hfold⟩ :=
    foldl_discover (next value) (adj current) { s with queue := rest, taken := s.taken ++ [current] }
  refine ⟨found, hnodup, hmem, ?_⟩
  simp only [turn, hq, hv]
  rw [hfold]

theorem turn_nil {adj : α → List α} {next : β → β} {s : Search α β} (hq : s.queue = []) :
    turn adj next s = some (.done s) := by
  simp only [turn, hq]

/-- The state of a search from `seeds` over the nodes of `nodes`, where `before` was seen already. -/
structure Inv (adj : α → List α) (nodes : Finset α) (before : α → Option β) (seeds : List α)
    (s : Search α β) : Prop where
  nodup : (s.taken ++ s.queue).Nodup
  inside : ∀ x ∈ s.taken ++ s.queue, x ∈ nodes
  seen : ∀ x, (s.seen x).isSome ↔ (before x).isSome ∨ x ∈ s.taken ++ s.queue
  kept : ∀ x v, before x = some v → x ∉ s.taken ++ s.queue → s.seen x = some v
  fresh : ∀ x ∈ s.taken ++ s.queue, before x = none
  seeded : ∀ x ∈ seeds, x ∈ s.taken ++ s.queue
  closed : ∀ x ∈ s.taken, ∀ y ∈ adj x, (s.seen y).isSome
  reached : ∀ x ∈ s.taken ++ s.queue, ∃ seed ∈ seeds, Reach adj seed x

section
variable {adj : α → List α} {nodes : Finset α} {before : α → Option β} {seeds : List α} {next : β → β}

theorem start_inv (hnodup : seeds.Nodup) (hin : ∀ x ∈ seeds, x ∈ nodes) (hfresh : ∀ x ∈ seeds, before x = none)
    (value : β) : Inv adj nodes before seeds (start before value seeds) := by
  rw [start_eq]
  refine ⟨hnodup, hin, fun x => ?_, fun x v hx hn => ?_, hfresh, fun x hx => hx, fun x hx => ?_, fun x hx => ⟨x, hx, .refl⟩⟩
  · by_cases hx : x ∈ seeds
    · simp [hx]
    · simp [hx]
  · simp only [List.nil_append] at hn
    simp only [hn, if_false, hx]
  · cases hx

theorem turn_inv (next : β → β) (huniv : ∀ x ∈ nodes, ∀ y ∈ adj x, y ∈ nodes) {s : Search α β}
    (h : Inv adj nodes before seeds s) {current : α} {rest : List α} (hq : s.queue = current :: rest) :
    ∃ value found, s.seen current = some value ∧ (∀ x, x ∈ found ↔ x ∈ adj current ∧ s.seen x = none) ∧
      turn adj next s = some (.next ⟨rest ++ found, fun x => if x ∈ found then some (next value) else s.seen x,
        s.taken ++ [current]⟩) ∧
      Inv adj nodes before seeds ⟨rest ++ found, fun x => if x ∈ found then some (next value) else s.seen x,
        s.taken ++ [current]⟩ := by
  have hmemq : ∀ x, x ∈ s.taken ++ s.queue ↔ x ∈ s.taken ++ [current] ++ rest := fun x => by rw [hq]; simp
  have hcur : current ∈ s.taken ++ s.queue := by rw [hq]; simp
  obtain ⟨value, hv⟩ := Option.isSome_iff_exists.1 ((h.seen current).2 (.inr hcur))
  obtain ⟨found, hnodup, hfound, hturn⟩ := turn_cons hq hv
  -- the nodes of the new state: those of the old one and the ones found
  have hmem : ∀ x, x ∈ s.taken ++ [current] ++ (rest ++ found) ↔ x ∈ s.taken ++ s.queue ∨ x ∈ found := fun x => by
    rw [hmemq, ← List.append_assoc, List.mem_append (t := found)]
  have hnew : ∀ x ∈ found, x ∉ s.taken ++ s.queue ∧ before x = none := by
    intro x hx
    have hnone := ((hfound x).1 hx).2
    constructor
    · intro hin
      have := (h.seen x).2 (.inr hin)
      simp [hnone] at this
    · cases hb : before x with
      | none => rfl
      | some v =>
        have := (h.seen x).2 (.inl (by simp [hb]))
        simp [hnone] at this
  have hseen : ∀ x, ((if x ∈ found then some (next value) else s.seen x).isSome) ↔ (s.seen x).isSome ∨ x ∈ found :=
    fun x => by
      by_cases hx : x ∈ found
      · simp [hx]
      · simp [hx]
  refine ⟨value, found, hv, hfound, hturn, ?_, fun x hx => ?_, fun x => ?_, fun x v hb hx => ?_, fun x hx => ?_,
    fun x hx => ?_, fun x hx y hy => ?_, fun x hx => ?_⟩
  · have hold : (s.taken ++ [current] ++ rest).Nodup := by simpa [hq] using h.nodup
    rw [← List.append_assoc]
    refine List.nodup_append.2 ⟨hold, hnodup, fun a ha b hb he => (hnew b hb).1 ?_⟩
    rw [hmemq, ← he]
    exact ha
  · rcases (hmem x).1 hx with hx | hx
    · exact h.inside x hx
    · exact huniv current (h.inside current hcur) x ((hfound x).1 hx).1
  · rw [hseen, hmem, h.seen, or_assoc]
  · rw [hmem, not_or] at hx
    simp only [hx.2, if_false]
    exact h.kept x v hb hx.1
  · rcases (hmem x).1 hx with hx | hx
    · exact h.fresh x hx
    · exact (hnew x hx).2
  · exact (hmem x).2 (.inl (h.seeded x hx))
  · rw [hseen]
    rcases List.mem_append.1 hx with hx | hx
    · exact .inl (h.closed x hx y hy)
    · obtain rfl := List.mem_singleton.1 hx
      cases hy' : s.seen y with
      | none => exact .inr ((hfound y).2 ⟨hy, hy'⟩)
      | some v => exact .inl rfl
  · rcases (hmem x).1 hx with hx | hx
    · exact h.reached x hx
    · obtain ⟨seed, hseed, hreach⟩ := h.reached current hcur
      exact ⟨seed, hseed, hreach.tail ((hfound x).1 hx).1⟩

theorem run_inv (next : β → β) (huniv : ∀ x ∈ nodes, ∀ y ∈ adj x, y ∈ nodes) {s : Search α β}
    (h : Inv adj nodes before seeds s) (htaken : s.taken = []) {fuel : Nat} (hfuel : nodes.card < fuel) :
    ∃ r, run adj next fuel s = some r ∧ Inv adj nodes before seeds r ∧ r.queue = [] := by
  refine loop_spec (turn adj next) (Inv adj nodes before seeds) (fun s => nodes.card - s.taken.length)
    (fun r => Inv adj nodes before seeds r ∧ r.queue = []) (fun s hs => ?_) fuel s h (by simp [htaken, hfuel])
  cases hq : s.queue with
  | nil => exact .inr ⟨s, turn_nil hq, hs, hq⟩
  | cons current rest =>
    obtain ⟨value, found, -, -, hturn, hinv⟩ := turn_inv next huniv hs hq
    refine .inl ⟨_, hturn, hinv, ?_⟩
    have hle : (s.taken ++ s.queue).length ≤ nodes.card := by
      rw [← List.toFinset_card_of_nodup hs.nodup]
      exact Finset.card_le_card fun x hx => hs.inside x (List.mem_toFinset.1 hx)
    rw [List.length_append, hq, List.length_cons] at hle
    rw [List.length_append, List.length_singleton]
    omega

omit [DecidableEq α] in
/-- With symmetric neighbours and a closed set seen before, the nodes taken are those the seeds reach. -/
theorem taken_iff (hsymm : ∀ x y, y ∈ adj x → x ∈ adj y) {r : Search α β}
    (hclosed : ∀ x, (before x).isSome → ∀ y ∈ adj x, (before y).isSome)
    (h : Inv adj nodes before seeds r) (hq : r.queue = []) (x : α) :
    x ∈ r.taken ↔ ∃ seed ∈ seeds, Reach adj seed x := by
  have hall : ∀ x, x ∈ r.taken ++ r.queue ↔ x ∈ r.taken := fun x => by rw [hq, List.append_nil]
  constructor
  · exact fun hx => h.reached x ((hall x).2 hx)
  · rintro ⟨seed, hseed, hreach⟩
    induction hreach with
    | refl => exact (hall seed).1 (h.seeded seed hseed)
    | @tail y z hy hz ih =>
      rcases (h.seen z).1 (h.closed y ih z hz) with hb | hin
      · -- what was seen before is closed, so its neighbour was seen before too
        have := hclosed z hb y (hsymm y z hz)
        rw [h.fresh y ((hall y).2 ih)] at this
        cases this
      · exact (hall z).1 hin

end

/-! ## Depths -/

/-- Depths along the queue never fall, and no node seen is deeper than one below its front. -/
structure Depths (adj : α → List α) (seeds : List α) (s : Search α Nat) : Prop where
  seed_depth : ∀ x ∈ seeds, s.seen x = some 0
  walk : ∀ x d, s.seen x = some d → ∃ seed ∈ seeds, Walk adj seed d x
  sorted : s.queue.Pairwise fun x y => ∀ d e, s.seen x = some d → s.seen y = some e → d ≤ e
  front : ∀ x rest d, s.queue = x :: rest → s.seen x = some d → ∀ y e, s.seen y = some e → e ≤ d + 1
  edge : ∀ x ∈ s.taken, ∀ d, s.seen x = some d → ∀ y ∈ adj x, ∃ e, s.seen y = some e ∧ e ≤ d + 1

theorem start_depths (adj : α → List α) (seeds : List α) : Depths adj seeds (start (fun _ => none) 0 seeds) := by
  rw [start_eq]
  have hzero : ∀ x d, (if x ∈ seeds then some 0 else none) = some d → x ∈ seeds ∧ d = 0 := by
    intro x d hx
    split at hx
    · next hmem => exact ⟨hmem, (Option.some.inj hx).symm⟩
    · cases hx
  refine ⟨fun x hx => if_pos hx, fun x d hx => ?_, ?_, fun x rest d _ hd y e he => ?_, fun x hx => by cases hx⟩
  · obtain ⟨hmem, rfl⟩ := hzero x d hx
    exact ⟨x, hmem, .refl⟩
  · refine List.pairwise_of_forall fun x y d e hd he => ?_
    rw [(hzero x d hd).2, (hzero y e he).2]
  · rw [(hzero y e he).2]
    exact Nat.zero_le _

theorem turn_depths {adj : α → List α} {seeds : List α} {s : Search α Nat} {current : α} {rest found : List α} {d : Nat}
    {seen : α → Option Nat} (heq : ∀ x, seen x = if x ∈ found then some (d + 1) else s.seen x)
    (h : Depths adj seeds s) (hq : s.queue = current :: rest) (hd : s.seen current = some d)
    (hfound : ∀ x, x ∈ found ↔ x ∈ adj current ∧ s.seen x = none)
    (hseen : ∀ x ∈ s.taken ++ s.queue, (s.seen x).isSome) :
    Depths adj seeds ⟨rest ++ found, seen, s.taken ++ [current]⟩ := by
  have hnew : ∀ x ∈ found, seen x = some (d + 1) := fun x hx => by rw [heq, if_pos hx]
  have hold : ∀ x, (s.seen x).isSome → seen x = s.seen x := by
    intro x hx
    rw [heq, if_neg]
    intro hf
    rw [((hfound x).1 hf).2] at hx
    cases hx
  have hsorted := h.sorted
  rw [hq, List.pairwise_cons] at hsorted
  have hrest : ∀ x ∈ rest, (s.seen x).isSome := fun x hx => hseen x (by simp [hq, hx])
  -- every node seen after the turn is at most one below the front before it
  have hbound : ∀ y e, seen y = some e → e ≤ d + 1 := by
    intro y e he
    rw [heq] at he
    split at he
    · exact (Option.some.inj he).ge
    · exact h.front current rest d hq hd y e he
  refine ⟨fun x hx => ?_, fun x e hx => ?_, ?_, fun x tail e hx he y f hf => ?_, fun x hx e he y hy => ?_⟩
  · exact (hold x (by simp [h.seed_depth x hx])).trans (h.seed_depth x hx)
  · have hx : seen x = some e := hx
    rw [heq] at hx
    split at hx
    · next hf =>
      obtain rfl := Option.some.inj hx
      obtain ⟨seed, hseed, hwalk⟩ := h.walk current d hd
      exact ⟨seed, hseed, hwalk.tail ((hfound x).1 hf).1⟩
    · exact h.walk x e hx
  · refine List.pairwise_append.2 ⟨?_, ?_, ?_⟩
    · refine hsorted.2.imp_of_mem fun {x y} hx hy hxy e f he hf => hxy e f ?_ ?_
      · exact (hold x (hrest x hx)).symm.trans he
      · exact (hold y (hrest y hy)).symm.trans hf
    · refine List.pairwise_of_forall_mem_list fun x hx y hy e f he hf => ?_
      obtain rfl := Option.some.inj ((hnew x hx).symm.trans he)
      exact (Option.some.inj ((hnew y hy).symm.trans hf)).le
    · intro x hx y hy e f he hf
      obtain rfl := Option.some.inj ((hnew y hy).symm.trans hf)
      exact hbound x e he
  · -- the next front lies no higher than the one taken
    have hle : d ≤ e := by
      cases rest with
      | nil =>
        rw [List.nil_append] at hx
        have hf : x ∈ found := (show found = x :: tail from hx) ▸ List.mem_cons_self
        exact (Nat.le_succ d).trans (Option.some.inj ((hnew x hf).symm.trans he)).le
      | cons z rest =>
        rw [List.cons_append, List.cons.injEq] at hx
        obtain ⟨rfl, -⟩ := hx
        exact hsorted.1 z (by simp) d e hd ((hold z (hrest z (by simp))).symm.trans he)
    exact (hbound y f hf).trans (by omega)
  · have hx' : x ∈ s.taken ++ s.queue := by
      rcases List.mem_append.1 hx with hx | hx
      · simp [hx]
      · simp [List.mem_singleton.1 hx, hq]
    have hex : s.seen x = some e := (hold x (hseen x hx')).symm.trans he
    rcases List.mem_append.1 hx with hx | hx
    · obtain ⟨f, hf, hle⟩ := h.edge x hx e hex y hy
      exact ⟨f, (hold y (by simp [hf])).trans hf, hle⟩
    · obtain rfl := List.mem_singleton.1 hx
      obtain rfl : d = e := Option.some.inj (hd.symm.trans hex)
      by_cases hy' : y ∈ found
      · exact ⟨d + 1, hnew y hy', le_rfl⟩
      · obtain ⟨f, hf⟩ := Option.isSome_iff_exists.1 (by
          rw [← Option.ne_none_iff_isSome]
          exact fun hn => hy' ((hfound y).2 ⟨hy, hn⟩) : (s.seen y).isSome)
        exact ⟨f, (hold y (by simp [hf])).trans hf, h.front x rest d hq hd y f hf⟩

/-- `d` is the length of a shortest walk from a seed. -/
def IsNearest (adj : α → List α) (seeds : List α) (x : α) (d : Nat) : Prop :=
  (∃ seed ∈ seeds, Walk adj seed d x) ∧ ∀ seed ∈ seeds, ∀ k, Walk adj seed k x → d ≤ k

theorem run_nearest {adj : α → List α} {nodes : Finset α} {seeds : List α}
    (huniv : ∀ x ∈ nodes, ∀ y ∈ adj x, y ∈ nodes) (hnodup : seeds.Nodup) (hseeds : ∀ x ∈ seeds, x ∈ nodes) {fuel : Nat}
    (hfuel : nodes.card < fuel) :
    ∃ r, run adj (· + 1) fuel (start (fun _ => none) 0 seeds) = some r ∧
      ∀ x d, r.seen x = some d ↔ IsNearest adj seeds x d := by
  have hstart : Inv adj nodes (fun _ => none) seeds (start (fun _ => none) 0 seeds) :=
    start_inv hnodup hseeds (by simp) 0
  obtain ⟨r, hr, ⟨hinv, hdepths⟩, hq⟩ : ∃ r, run adj (· + 1) fuel (start (fun _ => none) 0 seeds) = some r ∧
      (Inv adj nodes (fun _ => none) seeds r ∧ Depths adj seeds r) ∧ r.queue = [] := by
    obtain ⟨r, hr, -, hq⟩ := run_inv (· + 1) huniv hstart (by rw [start_eq]) hfuel
    refine ⟨r, hr, ?_, hq⟩
    refine loop_inv (turn adj (· + 1))
      (fun s => Inv adj nodes (fun _ => none) seeds s ∧ Depths adj seeds s)
      (fun s => Inv adj nodes (fun _ => none) seeds s ∧ Depths adj seeds s)
      (fun s s' hs hstep => ?_) (fun s s' hs hstep => ?_) fuel _ r ⟨hstart, start_depths adj seeds⟩ hr
    · cases hsq : s.queue with
      | nil =>
        rw [turn_nil hsq] at hstep
        cases hstep
      | cons current rest =>
        obtain ⟨d, found, hd, hfound, hturn, hs'⟩ := turn_inv (· + 1) huniv hs.1 hsq
        obtain rfl : _ = s' := Ctl.next.inj (Option.some.inj (hturn.symm.trans hstep))
        exact ⟨hs', turn_depths (fun _ => rfl) hs.2 hsq hd hfound fun x hx => (hs.1.seen x).2 (.inr hx)⟩
    · cases hsq : s.queue with
      | nil =>
        rw [turn_nil hsq] at hstep
        obtain rfl : s = s' := Ctl.done.inj (Option.some.inj hstep)
        exact hs
      | cons current rest =>
        obtain ⟨d, found, -, -, hturn, -⟩ := turn_inv (· + 1) huniv hs.1 hsq
        cases hturn.symm.trans hstep
  have hseen : ∀ x d, r.seen x = some d → x ∈ r.taken := by
    intro x d hx
    have := (hinv.seen x).1 (by simp [hx])
    simpa [hq] using this
  have hshort : ∀ seed ∈ seeds, ∀ k x, Walk adj seed k x → ∃ d, r.seen x = some d ∧ d ≤ k := by
    intro seed hseed k x hw
    induction hw with
    | refl => exact ⟨0, hdepths.seed_depth seed hseed, le_rfl⟩
    | @tail k y z _ hz ih =>
      obtain ⟨d, hd, hle⟩ := ih
      obtain ⟨e, he, hle'⟩ := hdepths.edge y (hseen y d hd) d hd z hz
      exact ⟨e, he, by omega⟩
  refine ⟨r, hr, fun x d => ⟨fun hx => ⟨hdepths.walk x d hx, fun seed hseed k hk => ?_⟩, fun hx => ?_⟩⟩
  · obtain ⟨e, he, hle⟩ := hshort seed hseed k x hk
    obtain rfl : d = e := by rw [hx] at he; exact Option.some.inj he
    exact hle
  · obtain ⟨⟨seed, hseed, hwalk⟩, hleast⟩ := hx
    obtain ⟨e, he, hle⟩ := hshort seed hseed d x hwalk
    obtain ⟨seed', hseed', hwalk'⟩ := hdepths.walk x e he
    have := hleast seed' hseed' e hwalk'
    obtain rfl : e = d := by omega
    exact he

theorem run_depths {adj : α → List α} {nodes : Finset α} (root : α)
    (huniv : ∀ x ∈ nodes, ∀ y ∈ adj x, y ∈ nodes) (hroot : root ∈ nodes) {fuel : Nat}
    (hfuel : nodes.card < fuel) :
    ∃ r, run adj (· + 1) fuel (start (fun _ => none) 0 [root]) = some r ∧
      ∀ x d, r.seen x = some d ↔ IsDistance adj root x d := by
  obtain ⟨r, hr, hseen⟩ := run_nearest huniv (List.nodup_singleton root) (by simpa using hroot) hfuel
  refine ⟨r, hr, fun x d => (hseen x d).trans ?_⟩
  simp only [IsNearest, IsDistance, List.mem_singleton, exists_eq_left, forall_eq]

end Search

end Rumoca.Lib
