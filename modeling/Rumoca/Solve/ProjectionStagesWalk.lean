import Mathlib.Data.List.Pairwise
import Mathlib.Data.List.TakeWhile
import Rumoca.Solve.ProjectionStages
/-!
# The tables answer as the ordered walk

The claimed segments partition the rows that some stage claims, each with the
target its first claim gives it; so the lookup agrees with the walk on every row
but `usize::MAX`, which no segment reaches. The block table answers as the list of
all blocks.
-/

namespace Rumoca.Solve

open Rumoca.Lib

variable {Tearing Chart : Type}

/-! ## The entry before the partition point -/

theorem beforePartition_spec {α : Type} {p : α → Bool} {l : List α} (h : l.Pairwise fun a b => p b → p a) :
    (beforePartition p l = none ∧ ∀ a ∈ l, p a = false) ∨
      ∃ before a after, l = before ++ a :: after ∧ beforePartition p l = some a ∧ p a ∧ ∀ b ∈ after, p b = false := by
  obtain ⟨before, after, rfl, hpoint, hbefore, hafter⟩ := exists_partition h
  rcases List.eq_nil_or_concat before with rfl | ⟨init, a, rfl⟩
  · exact .inl ⟨by simp only [beforePartition, hpoint, List.length_nil], by simpa using hafter⟩
  · rw [List.concat_eq_append] at hpoint hbefore ⊢
    refine .inr ⟨init, a, after, by simp, ?_, hbefore a (by simp), hafter⟩
    unfold beforePartition
    rw [hpoint, List.length_append, List.length_singleton]
    simp

/-! ## Segments -/

namespace RowSegment

def Covers (segment : RowSegment) (row : Nat) : Prop := segment.start ≤ row ∧ row < segment.start + segment.len

def Takes (segment : RowSegment) (row : Nat) : Prop := segment.start ≤ row ∧ row < segment.stop

instance (segment : RowSegment) (row : Nat) : Decidable (segment.Takes row) := inferInstanceAs (Decidable (_ ∧ _))

def target (segment : RowSegment) (row : Nat) : Option Nat :=
  segment.yStart.bind fun y => checkedUsize (y + (row - segment.start))

theorem stop_eq (segment : RowSegment) (h : segment.start + segment.len < usizeLimit) :
    segment.stop = segment.start + segment.len := min_eq_left (Nat.le_sub_one_of_lt h)

theorem stop_lt (segment : RowSegment) : segment.stop < usizeLimit :=
  lt_of_le_of_lt (min_le_right _ _) (by decide)

theorem not_takes_last (segment : RowSegment) {row : Nat} (h : usizeLimit - 1 ≤ row) : ¬segment.Takes row := by
  have hstop : segment.stop ≤ usizeLimit - 1 := min_le_right _ _
  unfold Takes
  omega

theorem bind_checkedUsize_add (value : Option Nat) (a b : Nat) :
    (value.bind fun y => checkedUsize (y + a)).bind (fun y => checkedUsize (y + b)) =
      value.bind fun y => checkedUsize (y + (a + b)) := by
  cases value with
  | none => rfl
  | some y =>
    simp only [Option.bind_some, checkedUsize]
    split_ifs <;> simp only [Option.bind_some, Option.bind_none] <;> grind

theorem piece_target (segment : RowSegment) {start stop row : Nat} (hstart : segment.start ≤ start) (hrow : start ≤ row) :
    (segment.piece start stop).target row = segment.target row := by
  unfold target piece
  rw [bind_checkedUsize_add]
  have hsum : start - segment.start + (row - start) = row - segment.start := by omega
  rw [hsum]

end RowSegment

/-! ## Gaps -/

theorem gaps_spec {segments : List RowSegment} {cursor stop : Nat}
    (hsorted : segments.Pairwise fun a b => a.stop ≤ b.start) (hproper : ∀ a ∈ segments, a.start ≤ a.stop)
    (hinside : ∀ a ∈ segments, a.start < stop) :
    (∀ piece ∈ gaps stop segments cursor, cursor ≤ piece.1 ∧ piece.1 < piece.2 ∧ piece.2 ≤ stop) ∧
      (gaps stop segments cursor).Pairwise (fun a b => a.2 ≤ b.1) ∧
      ∀ row, (∃ piece ∈ gaps stop segments cursor, piece.1 ≤ row ∧ row < piece.2) ↔
        (cursor ≤ row ∧ row < stop) ∧ ∀ a ∈ segments, ¬a.Takes row := by
  induction segments generalizing cursor with
  | nil =>
    unfold gaps
    split_ifs with hlt
    · refine ⟨by simp [hlt], List.pairwise_singleton _ _, fun row => by simp⟩
    · refine ⟨by simp, List.Pairwise.nil, fun row => ?_⟩
      simp only [List.not_mem_nil, false_and, exists_false, false_iff, not_and]
      omega
  | cons existing rest ih =>
    obtain ⟨hfirst, hrest⟩ := List.pairwise_cons.1 hsorted
    have hexisting := hproper existing (by simp)
    have hlast := hinside existing (by simp)
    obtain ⟨hbounds, hascend, hrows⟩ : (∀ piece ∈ gaps stop rest (max cursor existing.stop),
        max cursor existing.stop ≤ piece.1 ∧ piece.1 < piece.2 ∧ piece.2 ≤ stop) ∧ _ := ih hrest
      (fun a ha => hproper a (by simp [ha])) (fun a ha => hinside a (by simp [ha]))
    have hhead : ∀ piece ∈ (if cursor < existing.start then [(cursor, existing.start)] else []),
        piece = (cursor, existing.start) ∧ cursor < existing.start := by
      intro piece hpiece
      split_ifs at hpiece with hlt
      · exact ⟨List.mem_singleton.1 hpiece, hlt⟩
      · cases hpiece
    unfold gaps
    refine ⟨fun piece hpiece => ?_, List.pairwise_append.2 ⟨?_, hascend, fun piece hpiece later hlater => ?_⟩, fun row => ?_⟩
    · rcases List.mem_append.1 hpiece with hpiece | hpiece
      · obtain ⟨rfl, hlt⟩ := hhead piece hpiece
        exact ⟨le_refl _, hlt, hlast.le⟩
      · obtain ⟨hcursor, hlt, hstop⟩ := hbounds piece hpiece
        exact ⟨(le_max_left _ _).trans hcursor, hlt, hstop⟩
    · split_ifs
      · exact List.pairwise_singleton _ _
      · exact List.Pairwise.nil
    · obtain ⟨rfl, -⟩ := hhead piece hpiece
      have hcursor := (hbounds later hlater).1
      dsimp only
      omega
    · -- a row of the claim lies before the segment, in it, or past it
      have hsplit : (∃ piece ∈ (if cursor < existing.start then [(cursor, existing.start)] else []),
          piece.1 ≤ row ∧ row < piece.2) ↔ cursor ≤ row ∧ row < existing.start := by
        split_ifs with hlt
        · simp
        · simp only [List.not_mem_nil, false_and, exists_false, false_iff]
          omega
      have hlater : row < existing.start → ∀ a ∈ rest, ¬a.Takes row := by
        intro hrow a ha htakes
        have hle := hfirst a ha
        unfold RowSegment.Takes at htakes
        omega
      simp only [List.mem_append, or_and_right, exists_or, hsplit, hrows, List.forall_mem_cons]
      unfold RowSegment.Takes at hlater ⊢
      constructor
      · rintro (⟨hcursor, hrow⟩ | ⟨⟨hcursor, hrow⟩, hnone⟩)
        · exact ⟨⟨hcursor, by omega⟩, by omega, hlater hrow⟩
        · exact ⟨⟨by omega, hrow⟩, by omega, hnone⟩
      · rintro ⟨⟨hcursor, hrow⟩, hnot, hnone⟩
        by_cases hbefore : row < existing.start
        · exact .inl ⟨hcursor, hbefore⟩
        · exact .inr ⟨⟨by omega, hrow⟩, hnone⟩

/-! ## The claimed segments -/

/-- The claimed segments ascend by start, none is empty and no two have a row in common. -/
structure Claimed (claimed : List (Nat × RowSegment)) : Prop where
  ascending : Ascending claimed
  start : ∀ e ∈ claimed, e.2.start = e.1
  nonempty : ∀ e ∈ claimed, 0 < e.2.len
  bounded : ∀ e ∈ claimed, e.2.start + e.2.len < usizeLimit
  single : ∀ e ∈ claimed, ∀ f ∈ claimed, ∀ row, e.2.Takes row → f.2.Takes row → e = f

def Owns (claimed : List (Nat × RowSegment)) (row : Nat) (target : Option Nat) : Prop :=
  ∃ e ∈ claimed, e.2.Takes row ∧ e.2.target row = target

theorem Claimed.nil : Claimed [] := ⟨List.Pairwise.nil, by simp, by simp, by simp, by simp⟩

section
variable {claimed : List (Nat × RowSegment)} {e f : Nat × RowSegment}

theorem Claimed.stop_eq (h : Claimed claimed) (he : e ∈ claimed) : e.2.stop = e.1 + e.2.len := by
  rw [RowSegment.stop_eq _ (h.bounded e he), h.start e he]

theorem Claimed.takes_start (h : Claimed claimed) (he : e ∈ claimed) : e.2.Takes e.1 := by
  have hstop := h.stop_eq he
  have hlen := h.nonempty e he
  have hstart := h.start e he
  unfold RowSegment.Takes
  omega

theorem Claimed.apart (h : Claimed claimed) (he : e ∈ claimed) (hf : f ∈ claimed) (hlt : e.1 < f.1) :
    e.2.stop ≤ f.2.start := by
  by_contra hover
  have hstart := h.start e he
  have hstart' := h.start f hf
  have htakes : e.2.Takes f.1 := by
    unfold RowSegment.Takes
    omega
  have heq := h.single e he f hf f.1 htakes (h.takes_start hf)
  exact absurd (congrArg Prod.fst heq) (Nat.ne_of_lt hlt)

theorem Claimed.pairwise_apart (h : Claimed claimed) : claimed.Pairwise fun a b => a.2.stop ≤ b.2.start :=
  h.ascending.imp_of_mem fun he hf hlt => h.apart he hf hlt

/-- The segments that the walk back from the claim's end collects. -/
def overlapping (claimed : List (Nat × RowSegment)) (segment : RowSegment) : List (Nat × RowSegment) :=
  ((claimed.filter (·.1 < segment.stop)).reverse.takeWhile (segment.start < ·.2.stop)).reverse

theorem Claimed.overlapping_eq (h : Claimed claimed) (segment : RowSegment) :
    overlapping claimed segment = claimed.filter fun e => e.1 < segment.stop ∧ segment.start < e.2.stop := by
  have hwalk : (claimed.filter (·.1 < segment.stop)).reverse.Pairwise
      fun a b => decide (segment.start < b.2.stop) → decide (segment.start < a.2.stop) := by
    refine List.pairwise_reverse.2 ((h.pairwise_apart.filter _).imp_of_mem fun {a b} ha hb hab hlt => ?_)
    have hstop := h.stop_eq (List.mem_of_mem_filter hb)
    have hstart := h.start _ (List.mem_of_mem_filter hb)
    simp only [decide_eq_true_eq] at hlt ⊢
    omega
  have htake := StorageRunIndex.filter_takeWhile hwalk fun _ _ hq => hq
  have hkeep : ∀ a ∈ (claimed.filter (·.1 < segment.stop)).reverse.takeWhile (segment.start < ·.2.stop),
      decide (segment.start < a.2.stop) :=
    fun a ha => List.mem_takeWhile_imp (p := fun a : Nat × RowSegment => decide (segment.start < a.2.stop)) ha
  rw [List.filter_eq_self.2 hkeep] at htake
  rw [overlapping, htake, List.filter_reverse, List.reverse_reverse, List.filter_filter]
  exact List.filter_congr fun a _ => by rw [Bool.and_comm, Bool.decide_and]

theorem insert_pieces (segment : RowSegment) {pieces : List (Nat × Nat)} (hascending : Ascending claimed)
    (hpieces : pieces.Pairwise fun a b => a.1 < b.1) (hfresh : ∀ piece ∈ pieces, ∀ e ∈ claimed, e.1 ≠ piece.1) :
    Ascending (pieces.foldl (fun claimed piece => insertKey piece.1 (segment.piece piece.1 piece.2) claimed) claimed) ∧
      ∀ e, e ∈ pieces.foldl (fun claimed piece => insertKey piece.1 (segment.piece piece.1 piece.2) claimed) claimed ↔
        e ∈ claimed ∨ ∃ piece ∈ pieces, e = (piece.1, segment.piece piece.1 piece.2) := by
  induction pieces generalizing claimed with
  | nil => exact ⟨hascending, fun e => by simp⟩
  | cons piece rest ih =>
    obtain ⟨hfirst, hrest⟩ := List.pairwise_cons.1 hpieces
    have hmem := fun e => mem_insertKey (v := segment.piece piece.1 piece.2) (k := piece.1) hascending e
    obtain ⟨hsorted, hfold⟩ := ih (hascending.insertKey piece.1 (segment.piece piece.1 piece.2)) hrest
      (fun later hlater e he => by
        rcases (hmem e).1 he with rfl | ⟨he, -⟩
        · exact Nat.ne_of_lt (hfirst later hlater)
        · exact hfresh later (by simp [hlater]) e he)
    refine ⟨hsorted, fun e => (hfold e).trans ?_⟩
    have hkept : e ∈ claimed ∧ e.1 ≠ piece.1 ↔ e ∈ claimed :=
      ⟨fun he => he.1, fun he => ⟨he, hfresh piece (by simp) e he⟩⟩
    rw [hmem, hkept]
    simp only [List.mem_cons, exists_eq_or_imp]
    tauto

def piecesOf (claimed : List (Nat × RowSegment)) (segment : RowSegment) : List (Nat × Nat) :=
  gaps segment.stop ((overlapping claimed segment).map Prod.snd) segment.start

theorem Claimed.mem_overlapping (h : Claimed claimed) {segment : RowSegment} :
    e ∈ overlapping claimed segment ↔ e ∈ claimed ∧ e.1 < segment.stop ∧ segment.start < e.2.stop := by
  rw [h.overlapping_eq, List.mem_filter, decide_eq_true_eq]

theorem Claimed.piecesOf_spec (h : Claimed claimed) (segment : RowSegment) :
    (∀ piece ∈ piecesOf claimed segment, segment.start ≤ piece.1 ∧ piece.1 < piece.2 ∧ piece.2 ≤ segment.stop) ∧
      (piecesOf claimed segment).Pairwise (fun a b => a.2 ≤ b.1) ∧
      ∀ row, (∃ piece ∈ piecesOf claimed segment, piece.1 ≤ row ∧ row < piece.2) ↔
        segment.Takes row ∧ ∀ e ∈ claimed, ¬e.2.Takes row := by
  have hsub : ∀ a ∈ (overlapping claimed segment).map Prod.snd, ∃ e ∈ claimed, e.2 = a ∧ e.1 < segment.stop := by
    intro a ha
    obtain ⟨e, he, rfl⟩ := List.mem_map.1 ha
    obtain ⟨he, hbefore, -⟩ := h.mem_overlapping.1 he
    exact ⟨e, he, rfl, hbefore⟩
  have hsorted : ((overlapping claimed segment).map Prod.snd).Pairwise fun a b => a.stop ≤ b.start := by
    rw [List.pairwise_map, h.overlapping_eq]
    exact h.pairwise_apart.filter _
  obtain ⟨hbounds, hascend, hrows⟩ : (∀ piece ∈ gaps segment.stop ((overlapping claimed segment).map Prod.snd)
      segment.start, segment.start ≤ piece.1 ∧ piece.1 < piece.2 ∧ piece.2 ≤ segment.stop) ∧ _ := gaps_spec hsorted
    (fun a ha => by
      obtain ⟨e, he, rfl, -⟩ := hsub a ha
      rw [h.stop_eq he, h.start e he]
      exact Nat.le_add_right _ _)
    (fun a ha => by
      obtain ⟨e, he, rfl, hbefore⟩ := hsub a ha
      rwa [h.start e he])
  refine ⟨hbounds, hascend, fun row => (hrows row).trans (and_congr_right fun htakes => ?_)⟩
  constructor
  · intro hnone e he hrow
    refine hnone e.2 (List.mem_map.2 ⟨e, h.mem_overlapping.2 ⟨he, ?_, ?_⟩, rfl⟩) hrow
    · have hstart := h.start e he
      unfold RowSegment.Takes at hrow
      omega
    · exact lt_of_le_of_lt htakes.1 hrow.2
  · rintro hnone a ha hrow
    obtain ⟨e, he, rfl, -⟩ := hsub a ha
    exact hnone e he hrow

theorem takes_piece {segment : RowSegment} {piece : Nat × Nat} (hlt : piece.1 < piece.2) (hstop : piece.2 ≤ segment.stop)
    (row : Nat) : (segment.piece piece.1 piece.2).Takes row ↔ piece.1 ≤ row ∧ row < piece.2 := by
  have hlimit := segment.stop_lt
  have hsum : piece.1 + (piece.2 - piece.1) = piece.2 := by omega
  have hbounded : (segment.piece piece.1 piece.2).start + (segment.piece piece.1 piece.2).len < usizeLimit := by
    show piece.1 + (piece.2 - piece.1) < usizeLimit
    omega
  unfold RowSegment.Takes
  rw [RowSegment.stop_eq _ hbounded]
  show piece.1 ≤ row ∧ row < piece.1 + (piece.2 - piece.1) ↔ _
  rw [hsum]

theorem Claimed.claim (h : Claimed claimed) (segment : RowSegment) :
    Claimed (claim claimed segment) ∧ ∀ row target, Owns (Solve.claim claimed segment) row target ↔
      Owns claimed row target ∨
        (∀ e ∈ claimed, ¬e.2.Takes row) ∧ segment.Takes row ∧ segment.target row = target := by
  obtain ⟨hbounds, hascend, hrows⟩ := h.piecesOf_spec segment
  have hpieces : (piecesOf claimed segment).Pairwise fun a b => a.1 < b.1 :=
    hascend.imp_of_mem fun ha _ hab => lt_of_lt_of_le (hbounds _ ha).2.1 hab
  have hfree : ∀ piece ∈ piecesOf claimed segment, ∀ row, piece.1 ≤ row → row < piece.2 →
      segment.Takes row ∧ ∀ e ∈ claimed, ¬e.2.Takes row :=
    fun piece hpiece row hstart hstop => (hrows row).1 ⟨piece, hpiece, hstart, hstop⟩
  have hfresh : ∀ piece ∈ piecesOf claimed segment, ∀ e ∈ claimed, e.1 ≠ piece.1 := by
    rintro piece hpiece e he heq
    exact (hfree piece hpiece piece.1 (le_refl _) (hbounds piece hpiece).2.1).2 e he (heq ▸ h.takes_start he)
  obtain ⟨hsorted, hmem⟩ := insert_pieces segment h.ascending hpieces hfresh
  have htakes : ∀ piece ∈ piecesOf claimed segment, ∀ row,
      (segment.piece piece.1 piece.2).Takes row ↔ piece.1 ≤ row ∧ row < piece.2 :=
    fun piece hpiece row => takes_piece (hbounds piece hpiece).2.1 (hbounds piece hpiece).2.2 row
  have hsame : ∀ piece ∈ piecesOf claimed segment, ∀ later ∈ piecesOf claimed segment, ∀ row,
      (piece.1 ≤ row ∧ row < piece.2) → (later.1 ≤ row ∧ row < later.2) → piece = later := by
    intro piece hpiece later hlater row hrow hrow'
    by_contra hne
    have hapart : (piecesOf claimed segment).Pairwise fun a b => ¬((a.1 ≤ row ∧ row < a.2) ∧ b.1 ≤ row ∧ row < b.2) :=
      hascend.imp fun hab => by omega
    have : Std.Symm fun a b : Nat × Nat => ¬((a.1 ≤ row ∧ row < a.2) ∧ b.1 ≤ row ∧ row < b.2) :=
      ⟨fun _ _ hnot hboth => hnot hboth.symm⟩
    exact hapart.forall hpiece hlater hne ⟨hrow, hrow'⟩
  refine ⟨⟨hsorted, fun e he => ?_, fun e he => ?_, fun e he => ?_, fun e he f hf row hrow hrow' => ?_⟩, fun row target => ?_⟩
  · rcases (hmem e).1 he with he | ⟨piece, hpiece, rfl⟩
    · exact h.start e he
    · rfl
  · rcases (hmem e).1 he with he | ⟨piece, hpiece, rfl⟩
    · exact h.nonempty e he
    · exact Nat.sub_pos_of_lt (hbounds piece hpiece).2.1
  · rcases (hmem e).1 he with he | ⟨piece, hpiece, rfl⟩
    · exact h.bounded e he
    · have hpiece := hbounds piece hpiece
      have hlimit := segment.stop_lt
      show piece.1 + (piece.2 - piece.1) < usizeLimit
      omega
  · rcases (hmem e).1 he with he | ⟨piece, hpiece, rfl⟩ <;> rcases (hmem f).1 hf with hf | ⟨later, hlater, rfl⟩
    · exact h.single e he f hf row hrow hrow'
    · have hin := (htakes later hlater row).1 hrow'
      exact absurd hrow ((hfree later hlater row hin.1 hin.2).2 e he)
    · have hin := (htakes piece hpiece row).1 hrow
      exact absurd hrow' ((hfree piece hpiece row hin.1 hin.2).2 f hf)
    · rw [hsame piece hpiece later hlater row ((htakes piece hpiece row).1 hrow) ((htakes later hlater row).1 hrow')]
  · constructor
    · rintro ⟨e, he, hrow, rfl⟩
      rcases (hmem e).1 he with he | ⟨piece, hpiece, rfl⟩
      · exact .inl ⟨e, he, hrow, rfl⟩
      · have hin := (htakes piece hpiece row).1 hrow
        obtain ⟨hclaim, hnone⟩ := hfree piece hpiece row hin.1 hin.2
        exact .inr ⟨hnone, hclaim, (segment.piece_target (hbounds piece hpiece).1 hin.1).symm⟩
    · rintro (⟨e, he, hrow, rfl⟩ | ⟨hnone, hclaim, rfl⟩)
      · exact ⟨e, (hmem e).2 (.inl he), hrow, rfl⟩
      · obtain ⟨piece, hpiece, hstart, hstop⟩ := (hrows row).2 ⟨hclaim, hnone⟩
        exact ⟨_, (hmem _).2 (.inr ⟨piece, hpiece, rfl⟩), (htakes piece hpiece row).2 ⟨hstart, hstop⟩,
          segment.piece_target (hbounds piece hpiece).1 hstart⟩

end

theorem claimed_foldl (segments : List RowSegment) :
    Claimed (segments.foldl claim []) ∧ ∀ row target, Owns (segments.foldl claim []) row target ↔
      (segments.find? (·.Takes row)).map (·.target row) = some target := by
  induction segments using List.reverseRecOn with
  | nil => exact ⟨Claimed.nil, fun row target => by simp [Owns]⟩
  | append_singleton segments segment ih =>
    obtain ⟨hclaimed, howns⟩ := ih
    rw [List.foldl_append]
    obtain ⟨hnext, hstep⟩ := hclaimed.claim segment
    refine ⟨hnext, fun row target => (hstep row target).trans ?_⟩
    have hnone : (∀ e ∈ segments.foldl claim [], ¬e.2.Takes row) ↔ segments.find? (·.Takes row) = none := by
      constructor
      · intro hnone
        by_contra hsome
        obtain ⟨first, hfirst⟩ := Option.ne_none_iff_exists'.1 hsome
        obtain ⟨e, he, htakes, -⟩ := (howns row (first.target row)).2 (by rw [hfirst]; rfl)
        exact hnone e he htakes
      · intro hnone e he htakes
        have := (howns row (e.2.target row)).1 ⟨e, he, htakes, rfl⟩
        rw [hnone] at this
        cases this
    rw [howns, hnone, List.find?_append]
    cases hfirst : segments.find? (·.Takes row) with
    | some first => simp
    | none => by_cases htakes : segment.Takes row <;> simp [htakes]

end Rumoca.Solve
