import Rumoca.Structural.Assignment
/-!
# Augmenting paths and the matching they carry

Which edges are available is a relation on the nodes. `Flow` says that it
carries a matching: an available edge from a column back to a row is a
matched pair. Reversing a path from the source to the sink keeps a `Flow`;
the proof follows the path back from the sink as the source does, with the
balance broken at one node.
-/

namespace Rumoca.Structural

variable {n m : Nat} {A : Nat → Nat → Prop}

/-- `c` is the node of a column. -/
def IsColumn (n m c : Nat) : Prop := n ≤ c ∧ c < n + m

def Link (n m u v : Nat) : Prop :=
  (u = n + m ∧ v < n) ∨ (u < n ∧ IsColumn n m v) ∨ (IsColumn n m u ∧ v = n + m + 1)

/-- The available edges, after `u → v` is reversed. -/
def flip (A : Nat → Nat → Prop) (u v a b : Nat) : Prop := (a = v ∧ b = u) ∨ (A a b ∧ ¬ (a = u ∧ b = v))

def flipPath (A : Nat → Nat → Prop) : List Nat → Nat → Nat → Prop
  | v :: u :: rest => flipPath (flip A u v) (u :: rest)
  | _ => A

/-- Availability carries a matching at every node but `x`. -/
structure FlowExcept (n m : Nat) (A : Nat → Nat → Prop) (x : Nat) : Prop where
  typed : ∀ u v, A u v → Link n m u v ∨ Link n m v u
  asymm : ∀ u v, A u v → ¬ A v u
  col_unique : ∀ c r r', IsColumn n m c → r < n → r' < n → A c r → A c r' → r = r'
  row_unique : ∀ r c c', r < n → r ≠ x → IsColumn n m c → IsColumn n m c' → A c r → A c' r → c = c'
  source_iff : ∀ r < n, r ≠ x → (A (n + m) r ↔ ∀ c, IsColumn n m c → ¬ A c r)
  sink_iff : ∀ c, IsColumn n m c → c ≠ x → (A c (n + m + 1) ↔ ∀ r < n, ¬ A c r)

abbrev Flow (n m : Nat) (A : Nat → Nat → Prop) : Prop := FlowExcept n m A (n + m + 1)

/-- The edge from `c` to the sink is in use, with no row matched to `c` yet. -/
structure FlowColumn (n m : Nat) (A : Nat → Nat → Prop) (c : Nat) : Prop extends FlowExcept n m A c where
  column : IsColumn n m c
  used : ¬ A c (n + m + 1)
  free : ∀ r < n, ¬ A c r

/-- `r` is matched to `c` on top of what it had. -/
structure FlowRow (n m : Nat) (A : Nat → Nat → Prop) (r c : Nat) : Prop extends FlowExcept n m A r where
  row : r < n
  column : IsColumn n m c
  matched : A c r
  had : (A (n + m) r ∧ ∀ c', IsColumn n m c' → A c' r → c' = c) ∨
    (¬ A (n + m) r ∧ ∃ old, ∀ c', IsColumn n m c' → A c' r → c' = c ∨ c' = old)

theorem flip_typed {u v : Nat} (h : ∀ u v, A u v → Link n m u v ∨ Link n m v u) (huv : A u v) (a b : Nat)
    (hab : flip A u v a b) : Link n m a b ∨ Link n m b a := by
  rcases hab with ⟨rfl, rfl⟩ | ⟨hab, -⟩
  · exact (h _ _ huv).symm
  · exact h a b hab

theorem flip_asymm {u v : Nat} (h : ∀ u v, A u v → ¬ A v u) (huv : A u v) (a b : Nat) (hab : flip A u v a b) :
    ¬ flip A u v b a := by
  have hvu := h _ _ huv
  have hab' := h a b
  unfold flip at hab ⊢
  grind

/-! ## The steps back along a path -/

theorem Flow.reverse_sink {c : Nat} (h : Flow n m A) (hc : IsColumn n m c) (hA : A c (n + m + 1)) :
    FlowColumn n m (flip A c (n + m + 1)) c := by
  unfold IsColumn at hc
  have hfree := (h.sink_iff c hc (by omega)).1 hA
  refine ⟨⟨flip_typed h.typed hA, flip_asymm h.asymm hA, fun c' r r' hc' hr hr' h1 h2 => ?_,
    fun r c₁ c₂ hr _ h1 h2 h3 h4 => ?_, fun r hr _ => ?_, fun c' hc' hne => ?_⟩, hc, ?_, fun r hr hcr => ?_⟩
  · have := h.col_unique c' r r' hc' hr hr'
    unfold flip IsColumn at *
    grind
  · have := h.row_unique r c₁ c₂ hr (by omega) h1 h2
    unfold flip IsColumn at *
    grind
  · have := h.source_iff r hr (by omega)
    unfold flip IsColumn at *
    grind
  · have := h.sink_iff c' hc' (by unfold IsColumn at hc'; omega)
    unfold flip IsColumn at *
    grind
  · unfold flip
    grind
  · have := hfree r hr
    unfold flip at hcr
    grind

theorem FlowColumn.reverse_row {r c : Nat} (h : FlowColumn n m A c) (hr : r < n) (hA : A r c) :
    FlowRow n m (flip A r c) r c := by
  have hc := h.column
  unfold IsColumn at hc
  have hasymm := h.asymm r c hA
  refine ⟨⟨flip_typed h.typed hA, flip_asymm h.asymm hA, fun c' r₁ r₂ hc' h1 h2 h3 h4 => ?_,
    fun r' c₁ c₂ hr' hne h1 h2 h3 h4 => ?_, fun r' hr' hne => ?_, fun c' hc' hne => ?_⟩, hr, hc, ?_, ?_⟩
  · have := h.col_unique c' r₁ r₂ hc' h1 h2
    have := h.free r₁ h1
    have := h.free r₂ h2
    unfold flip IsColumn at *
    grind
  · have := h.row_unique r' c₁ c₂ hr' (by omega) h1 h2
    unfold flip IsColumn at *
    grind
  · have := h.source_iff r' hr' (by omega)
    unfold flip IsColumn at *
    grind
  · by_cases hcc : c' = c
    · subst hcc
      have := h.used
      unfold flip IsColumn at *
      grind
    · have := h.sink_iff c' hc' hcc
      unfold flip IsColumn at *
      grind
  · exact .inl ⟨rfl, rfl⟩
  · have hsrc := h.source_iff r hr (by omega)
    by_cases hs : A (n + m) r
    · refine .inl ⟨.inr ⟨hs, by omega⟩, fun c' hc' hf => ?_⟩
      rcases hf with ⟨rfl, -⟩ | ⟨hf, -⟩
      · rfl
      · exact absurd hf (hsrc.1 hs c' hc')
    · obtain ⟨old, hold, hA'⟩ : ∃ old, IsColumn n m old ∧ A old r := by
        by_contra hnone
        exact hs (hsrc.2 fun c' hc' hf => hnone ⟨c', hc', hf⟩)
      refine .inr ⟨fun hf => ?_, old, fun c' hc' hf => ?_⟩
      · rcases hf with ⟨hf, -⟩ | ⟨hf, -⟩
        · omega
        · exact hs hf
      · rcases hf with ⟨rfl, -⟩ | ⟨hf, -⟩
        · exact .inl rfl
        · exact .inr (h.row_unique r c' old hr (by omega) hc' hold hf hA')

theorem FlowRow.reverse_column {r c c' : Nat} (h : FlowRow n m A r c) (hc' : IsColumn n m c') (hne : c' ≠ c)
    (hA : A c' r) : FlowColumn n m (flip A c' r) c' := by
  have hr := h.row
  have hc := h.column
  have hhad := h.had
  have hm := h.matched
  refine ⟨⟨flip_typed h.typed hA, flip_asymm h.asymm hA, fun c₁ r₁ r₂ hc₁ h1 h2 h3 h4 => ?_,
    fun r' c₁ c₂ hr' hne h1 h2 h3 h4 => ?_, fun r' hr' hne => ?_, fun c₁ hc₁ hne => ?_⟩, hc', ?_, fun r' hr' hcr => ?_⟩
  · have := h.col_unique c₁ r₁ r₂ hc₁ h1 h2
    unfold flip IsColumn at *
    grind
  · have := h.row_unique r' c₁ c₂ hr'
    unfold flip IsColumn at *
    grind
  · have := h.source_iff r' hr'
    unfold flip IsColumn at *
    grind
  · have := h.sink_iff c₁ hc₁ (by unfold IsColumn at hc₁; omega)
    unfold flip IsColumn at *
    grind
  · have := h.sink_iff c' hc' (by unfold IsColumn at hc'; omega)
    unfold flip IsColumn at *
    grind
  · have := h.col_unique c' r r' hc' hr hr' hA
    unfold flip IsColumn at *
    grind

theorem FlowRow.reverse_source {r c : Nat} (h : FlowRow n m A r c) (hA : A (n + m) r) :
    Flow n m (flip A (n + m) r) := by
  have hr := h.row
  have hc := h.column
  have hhad := h.had
  have hm := h.matched
  refine ⟨flip_typed h.typed hA, flip_asymm h.asymm hA, fun c₁ r₁ r₂ hc₁ h1 h2 h3 h4 => ?_,
    fun r' c₁ c₂ hr' _ h1 h2 h3 h4 => ?_, fun r' hr' _ => ?_, fun c₁ hc₁ _ => ?_⟩
  · have := h.col_unique c₁ r₁ r₂ hc₁ h1 h2
    unfold flip IsColumn at *
    grind
  · have := h.row_unique r' c₁ c₂ hr'
    unfold flip IsColumn at *
    grind
  · have := h.source_iff r' hr'
    unfold flip IsColumn at *
    grind
  · have := h.sink_iff c₁ hc₁ (by unfold IsColumn at hc₁; omega)
    unfold flip IsColumn at *
    grind

/-! ## A whole path -/

/-- Consecutive nodes of a path given from its end: each has an available edge to the one before. -/
def PathBack (A : Nat → Nat → Prop) : List Nat → Prop
  | v :: u :: rest => A u v ∧ PathBack A (u :: rest)
  | _ => True

theorem PathBack.flip {u v : Nat} {path : List Nat} (h : PathBack A path) (hv : v ∉ path) :
    PathBack (Structural.flip A u v) path := by
  induction path with
  | nil => trivial
  | cons b path ih =>
    cases path with
    | nil => trivial
    | cons a path =>
      have hb : v ≠ b := fun hb => hv (by simp [hb])
      exact ⟨.inr ⟨h.1, fun hab => hb hab.2.symm⟩, ih h.2 fun hm => hv (List.mem_cons_of_mem _ hm)⟩

/-- What reversing a path leaves: a flow, in which the path's first row is no longer free. -/
def Augmented (n m : Nat) (A A' : Nat → Nat → Prop) : Prop :=
  Flow n m A' ∧ ∃ first < n, A (n + m) first ∧ ∀ r, A' (n + m) r ↔ A (n + m) r ∧ r ≠ first

theorem flip_source_of_ne {u v : Nat} (hu : u ≠ n + m) (hv : v ≠ n + m) (r : Nat) :
    flip A u v (n + m) r ↔ A (n + m) r := by
  unfold flip
  grind

/-- The walk back from a column, or from a row matched to `c`, to the source. -/
theorem flipPath_back (rest : List Nat) :
    (∀ A c, FlowColumn n m A c → PathBack A (c :: rest) → (c :: rest).Nodup → n + m + 1 ∉ rest →
      (c :: rest).getLast? = some (n + m) → Augmented n m A (flipPath A (c :: rest))) ∧
    ∀ A r c, FlowRow n m A r c → PathBack A (r :: rest) → (c :: r :: rest).Nodup → n + m + 1 ∉ rest →
      (r :: rest).getLast? = some (n + m) → Augmented n m A (flipPath A (r :: rest)) := by
  induction rest with
  | nil =>
    refine ⟨fun A c h _ _ _ hlast => ?_, fun A r c h _ _ _ hlast => ?_⟩
    · have hc := h.column
      unfold IsColumn at hc
      simp only [List.getLast?_singleton, Option.some.injEq] at hlast
      omega
    · have hr := h.row
      simp only [List.getLast?_singleton, Option.some.injEq] at hlast
      omega
  | cons u rest ih =>
    refine ⟨fun A c h hpath hnd hsink hlast => ?_, fun A r c h hpath hnd hsink hlast => ?_⟩
    · -- a column is reached from a row
      have hc := h.column
      have hu : u < n := by
        have := h.typed u c hpath.1
        have hne : u ≠ n + m + 1 := fun hu => hsink (by simp [hu])
        unfold Link IsColumn at *
        omega
      have hcu : c ∉ u :: rest := (List.nodup_cons.1 hnd).1
      obtain ⟨hflow, first, hfirst, hA, hiff⟩ := ih.2 (flip A u c) u c (h.reverse_row hu hpath.1)
        (hpath.2.flip hcu) hnd (fun hm => hsink (by simp [hm])) (by simpa using hlast)
      unfold IsColumn at hc
      have hsrc := flip_source_of_ne (A := A) (n := n) (m := m) (u := u) (v := c) (by omega) (by omega)
      exact ⟨hflow, first, hfirst, (hsrc first).1 hA, fun r => by rw [flipPath, hiff, hsrc]⟩
    · have hr := h.row
      rw [List.nodup_cons, List.nodup_cons] at hnd
      have htype := h.typed u r hpath.1
      have hsinku : u ≠ n + m + 1 := fun hu => hsink (by simp [hu])
      by_cases hus : u = n + m
      · -- the source ends the walk
        subst hus
        have hrest : rest = [] := by
          by_contra hne
          have hlast' : rest.getLast? = some (n + m) := by
            obtain ⟨a, rest', rfl⟩ := List.exists_cons_of_ne_nil hne
            simpa using hlast
          exact (List.nodup_cons.1 hnd.2.2).1 (List.mem_of_getLast? hlast')
        subst hrest
        refine ⟨h.reverse_source hpath.1, r, hr, hpath.1, fun r' => ?_⟩
        simp only [flipPath, flip]
        grind
      · have hcol : IsColumn n m u := by
          unfold Link IsColumn at *
          omega
        have hne : u ≠ c := fun hu => hnd.1 (by simp [hu])
        obtain ⟨hflow, first, hfirst, hA, hiff⟩ := ih.1 (flip A u r) u (h.reverse_column hcol hne hpath.1)
          (hpath.2.flip hnd.2.1) hnd.2.2 (fun hm => hsink (by simp [hm])) (by simpa using hlast)
        unfold IsColumn at hcol
        have hsrc := flip_source_of_ne (A := A) (n := n) (m := m) (u := u) (v := r) (by omega) (by omega)
        exact ⟨hflow, first, hfirst, (hsrc first).1 hA, fun r' => by rw [flipPath, hiff, hsrc]⟩

theorem Flow.flipPath {path : List Nat} (h : Flow n m A) (hpath : PathBack A ((n + m + 1) :: path))
    (hnd : ((n + m + 1) :: path).Nodup) (hlast : path.getLast? = some (n + m)) :
    Augmented n m A (flipPath A ((n + m + 1) :: path)) := by
  cases path with
  | nil => cases hlast
  | cons c rest =>
    have hcol : IsColumn n m c := by
      have := h.typed c _ hpath.1
      unfold Link IsColumn at *
      omega
    obtain ⟨hflow, first, hfirst, hA, hiff⟩ := (flipPath_back rest).1 (flip A c (n + m + 1)) c
      (h.reverse_sink hcol hpath.1) (hpath.2.flip (List.nodup_cons.1 hnd).1) (List.nodup_cons.1 hnd).2
      (fun hm => (List.nodup_cons.1 hnd).1 (by simp [hm])) hlast
    unfold IsColumn at hcol
    have hsrc := flip_source_of_ne (A := A) (n := n) (m := m) (u := c) (v := n + m + 1) (by omega) (by omega)
    exact ⟨hflow, first, hfirst, (hsrc first).1 hA, fun r => by rw [Structural.flipPath, hiff, hsrc]⟩

end Rumoca.Structural
