import Mathlib.Data.List.TakeWhile
import Rumoca.Solve.DefinedRegisters
/-!
# Defined registers are a set

An insertion covers its range besides what was covered, a removal uncovers
its range, and both leave canonical runs. By induction a sequence of
operations leaves runs that cover the plain set of the same operations, whose
queries the lookups then answer.
-/

namespace Rumoca.Solve

open Lib

namespace DefinedRegisters

variable {runs : DefinedRegisters} {run later : Nat × Nat} {start stop register : Nat}

/-! ## Insertion -/

theorem Canonical.insertKey (h : Canonical runs) (hne : start < stop)
    (hbefore : ∀ run ∈ runs, run.1 < start → run.2 < start) (hafter : ∀ run ∈ runs, start < run.1 → stop < run.1) :
    Canonical (insertKey start stop runs) where
  ascending := h.ascending.insertKey start stop
  nonempty := by
    intro run hrun
    rcases (mem_insertKey h.ascending run).1 hrun with rfl | ⟨hrun, -⟩
    · exact hne
    · exact h.nonempty run hrun
  gap := by
    intro run hrun later hlater hlt
    rcases (mem_insertKey h.ascending run).1 hrun with rfl | ⟨hrun, -⟩
    · rcases (mem_insertKey h.ascending later).1 hlater with rfl | ⟨hlater, -⟩
      · exact absurd hlt (Nat.lt_irrefl _)
      · exact hafter later hlater hlt
    · rcases (mem_insertKey h.ascending later).1 hlater with rfl | ⟨hlater, -⟩
      · exact hbefore run hrun hlt
      · exact h.gap run hrun later hlater hlt

theorem covers_insertKey (h : Canonical runs) : Covers (insertKey start stop runs) register ↔
    (start ≤ register ∧ register < stop) ∨ ∃ run ∈ runs, run.1 ≠ start ∧ run.1 ≤ register ∧ register < run.2 := by
  constructor
  · rintro ⟨run, hrun, hin⟩
    rcases (mem_insertKey h.ascending run).1 hrun with rfl | ⟨hrun, hne⟩
    · exact .inl hin
    · exact .inr ⟨run, hrun, hne, hin⟩
  · rintro (hin | ⟨run, hrun, hne, hin⟩)
    · exact ⟨(start, stop), (mem_insertKey h.ascending _).2 (.inl rfl), hin⟩
    · exact ⟨run, (mem_insertKey h.ascending run).2 (.inr ⟨hrun, hne⟩), hin⟩

theorem Canonical.removeKey (h : Canonical runs) (key : Nat) : Canonical (removeKey key runs) where
  ascending := h.ascending.removeKey key
  nonempty run hrun := h.nonempty run ((mem_removeKey run).1 hrun).1
  gap run hrun later hlater := h.gap run ((mem_removeKey run).1 hrun).1 later ((mem_removeKey later).1 hlater).1

/-- What absorbing some runs leaves: the others, and the largest end. -/
structure Absorbed (runs : DefinedRegisters) (stop : Nat) (starts : List Nat) (s : DefinedRegisters × Nat) : Prop where
  canonical : Canonical s.1
  mem : ∀ run, run ∈ s.1 ↔ run ∈ runs ∧ run.1 ∉ starts
  stop_le : stop ≤ s.2
  end_le : ∀ run ∈ runs, run.1 ∈ starts → run.2 ≤ s.2
  stop_eq : s.2 = stop ∨ ∃ run ∈ runs, run.1 ∈ starts ∧ run.2 = s.2

theorem absorb_spec (h : Canonical runs) (stop : Nat) (starts : List Nat) :
    Absorbed runs stop starts (starts.foldl absorb (runs, stop)) := by
  refine foldl_inv (Absorbed runs stop) (fun pre runStart post s _ hs => ?_)
    ⟨h, fun run => by simp, le_rfl, fun run _ hin => absurd hin List.not_mem_nil, .inl rfl⟩
  unfold absorb
  split
  · rename_i run hfind
    have hrun : run ∈ s.1 := List.mem_of_find?_eq_some hfind
    have hkey : run.1 = runStart := by simpa using List.find?_some hfind
    obtain ⟨hmem, hfresh⟩ := (hs.mem run).1 hrun
    subst hkey
    refine ⟨hs.canonical.removeKey _, fun other => ?_, hs.stop_le.trans (le_max_left _ _), fun other hother hin => ?_, ?_⟩
    · rw [mem_removeKey, hs.mem]
      simp [and_assoc]
    · rcases List.mem_append.1 hin with hin | hin
      · exact (hs.end_le other hother hin).trans (le_max_left _ _)
      · rw [h.ascending.eq_of_key hother hmem (List.mem_singleton.1 hin)]
        exact le_max_right _ _
    · rcases le_total s.2 run.2 with hle | hle
      · exact .inr ⟨run, hmem, by simp, (max_eq_right hle).symm⟩
      · rw [max_eq_left hle]
        rcases hs.stop_eq with hstop | ⟨other, hother, hin, hend⟩
        · exact .inl hstop
        · exact .inr ⟨other, hother, List.mem_append_left _ hin, hend⟩
  · rename_i hnone
    have habsent : ∀ run ∈ s.1, run.1 ≠ runStart := fun run hrun heq =>
      List.find?_eq_none.1 hnone run hrun (by simpa using heq)
    refine ⟨hs.canonical, fun run => ?_, hs.stop_le, fun run hrun hin => ?_, ?_⟩
    · constructor
      · intro hrun
        obtain ⟨hmem, hfresh⟩ := (hs.mem run).1 hrun
        exact ⟨hmem, fun hin => (List.mem_append.1 hin).elim hfresh fun h => habsent run hrun (List.mem_singleton.1 h)⟩
      · rintro ⟨hmem, hfresh⟩
        exact (hs.mem run).2 ⟨hmem, fun hin => hfresh (List.mem_append_left _ hin)⟩
    · rcases List.mem_append.1 hin with hin | hin
      · exact hs.end_le run hrun hin
      · by_cases hpre : run.1 ∈ pre
        · exact hs.end_le run hrun hpre
        · exact absurd (List.mem_singleton.1 hin) (habsent run ((hs.mem run).2 ⟨hrun, hpre⟩))
    · exact hs.stop_eq.imp id fun ⟨run, hrun, hin, hend⟩ => ⟨run, hrun, List.mem_append_left _ hin, hend⟩

/-- The ends a touching range is widened to: its own, or those of the run it touches from behind. -/
structure Widened (runs : DefinedRegisters) (start stop : Nat) (widened : Nat × Nat) : Prop where
  start_le : widened.1 ≤ start
  le_stop : stop ≤ widened.2
  before : ∀ run ∈ runs, run.1 < widened.1 → run.2 < widened.1
  left : ∀ r, widened.1 ≤ r → r < start → Covers runs r
  right : ∀ r, stop ≤ r → r < widened.2 → start ≤ r → Covers runs r

theorem widened_spec (h : Canonical runs) (start stop : Nat) : Widened runs start stop (widen runs start stop) := by
  unfold widen
  cases hlast : lastUpTo start runs with
  | none =>
    dsimp only
    refine ⟨le_rfl, le_rfl, fun run hrun hlt => ?_, fun r hr hr' => by omega, fun r hr hr' => by omega⟩
    have := lastUpTo_eq_none hlast run hrun
    omega
  | some last =>
    obtain ⟨hmem, hle, hmax⟩ := h.ascending.lastUpTo_eq_some hlast
    dsimp only
    split_ifs with htouch
    · refine ⟨hle, le_max_left _ _, fun run hrun hlt => h.gap run hrun last hmem hlt,
        fun r hr hr' => ⟨last, hmem, hr, by omega⟩, fun r hr hr' hr'' => ⟨last, hmem, by omega, ?_⟩⟩
      rcases lt_max_iff.1 hr' with hlt | hlt
      · omega
      · exact hlt
    · refine ⟨le_rfl, le_rfl, fun run hrun hlt => ?_, fun r hr hr' => by omega, fun r hr hr' => by omega⟩
      rcases (hmax run hrun (Nat.le_of_lt hlt)).lt_or_eq with hless | heq
      · have := h.gap run hrun last hmem hless
        have := h.nonempty last hmem
        omega
      · rw [h.ascending.eq_of_key hrun hmem heq]
        omega

theorem merge_spec (h : Canonical runs) (hne : start < stop) : Canonical (merge runs start stop) ∧
    ∀ r, Covers (merge runs start stop) r ↔ Covers runs r ∨ (start ≤ r ∧ r < stop) := by
  have hwidened := widened_spec h start stop
  unfold merge
  generalize widen runs start stop = widened at hwidened ⊢
  obtain ⟨hstart, hstop, hbefore, hleft, hright⟩ := hwidened
  dsimp only
  generalize hstarts : (runs.filter fun run => widened.1 ≤ run.1 ∧ run.1 ≤ widened.2).map Prod.fst = starts
  have hin : ∀ run ∈ runs, run.1 ∈ starts ↔ widened.1 ≤ run.1 ∧ run.1 ≤ widened.2 := by
    intro run hrun
    rw [← hstarts, List.mem_map]
    constructor
    · rintro ⟨other, hother, heq⟩
      have := (List.mem_filter.1 hother).2
      simp only [Bool.decide_and, Bool.and_eq_true, decide_eq_true_eq] at this
      rwa [heq] at this
    · intro hrange
      exact ⟨run, List.mem_filter.2 ⟨hrun, by simpa using hrange⟩, rfl⟩
  have habsorbed := absorb_spec h widened.2 starts
  generalize starts.foldl absorb (runs, widened.2) = merged at habsorbed ⊢
  -- a run past the widened range starts after the merged end
  have hpast : ∀ run ∈ runs, widened.2 < run.1 → merged.2 < run.1 := by
    intro run hrun hlt
    rcases habsorbed.stop_eq with heq | ⟨other, hother, hother', heq⟩
    · rwa [heq]
    · rw [← heq]
      exact h.gap other hother run hrun (((hin other hother).1 hother').2.trans_lt hlt)
  have hle := habsorbed.stop_le
  refine ⟨habsorbed.canonical.insertKey (by omega) (fun run hrun hlt => ?_) (fun run hrun hlt => ?_), fun r => ?_⟩
  · exact hbefore run ((habsorbed.mem run).1 hrun).1 hlt
  · obtain ⟨hrun, hfresh⟩ := (habsorbed.mem run).1 hrun
    rw [hin run hrun] at hfresh
    exact hpast run hrun (by omega)
  · rw [covers_insertKey habsorbed.canonical]
    constructor
    · rintro (⟨hr, hr'⟩ | ⟨run, hrun, -, hrange⟩)
      · rcases Nat.lt_or_ge r start with hlt | hge
        · exact .inl (hleft r hr hlt)
        · rcases Nat.lt_or_ge r stop with hlt' | hge'
          · exact .inr ⟨hge, hlt'⟩
          · refine .inl ?_
            rcases Nat.lt_or_ge r widened.2 with hwide | hwide
            · exact hright r hge' hwide hge
            · rcases habsorbed.stop_eq with heq | ⟨other, hother, hother', heq⟩
              · omega
              · exact ⟨other, hother, ((hin other hother).1 hother').2.trans hwide, heq ▸ hr'⟩
      · exact .inl ⟨run, ((habsorbed.mem run).1 hrun).1, hrange⟩
    · rintro (⟨run, hrun, hr, hr'⟩ | ⟨hr, hr'⟩)
      · by_cases habsorb : run.1 ∈ starts
        · have hend := habsorbed.end_le run hrun habsorb
          have hrange := (hin run hrun).1 habsorb
          exact .inl ⟨hrange.1.trans hr, hr'.trans_le hend⟩
        · refine .inr ⟨run, (habsorbed.mem run).2 ⟨hrun, habsorb⟩, fun heq => habsorb ?_, hr, hr'⟩
          exact (hin run hrun).2 (by omega)
      · exact .inl ⟨by omega, by omega⟩

theorem Canonical.last_spec (h : Canonical runs) {last : Nat × Nat} (hlast : runs.getLast? = some last) :
    last ∈ runs ∧ ∀ run ∈ runs, run.1 ≤ last.1 ∧ run.2 ≤ last.2 := by
  obtain ⟨init, rfl⟩ := List.getLast?_eq_some_iff.1 hlast
  have hmem : last ∈ init ++ [last] := List.mem_append_right _ (List.mem_singleton.2 rfl)
  refine ⟨hmem, fun run hrun => ?_⟩
  rcases List.mem_append.1 hrun with hinit | hsame
  · have hlt := (List.pairwise_append.1 h.ascending).2.2 run hinit last (List.mem_singleton.2 rfl)
    have hgap := h.gap run hrun last hmem hlt
    have hne := h.nonempty last hmem
    omega
  · rw [List.mem_singleton.1 hsame]
    exact ⟨le_rfl, le_rfl⟩

theorem insert_spec (h : Canonical runs) (start len : Nat) : Canonical (insert runs start len) ∧
    ∀ r, Covers (insert runs start len) r ↔ Covers runs r ∨ (start ≤ r ∧ r < saturatingAddUsize start len) := by
  unfold insert
  dsimp only
  by_cases hempty : saturatingAddUsize start len ≤ start
  · rw [if_pos hempty]
    exact ⟨h, fun r => ⟨.inl, fun hr => hr.elim id fun hr => by omega⟩⟩
  · rw [if_neg hempty]
    obtain ⟨stop, hstop⟩ : ∃ stop, stop = saturatingAddUsize start len := ⟨_, rfl⟩
    rw [← hstop] at hempty ⊢
    cases hlast : runs.getLast? with
    | none =>
      obtain rfl := List.getLast?_eq_none_iff.1 hlast
      refine ⟨h.insertKey (by omega) (fun _ hrun => absurd hrun List.not_mem_nil)
        (fun _ hrun => absurd hrun List.not_mem_nil), fun r => ?_⟩
      rw [covers_insertKey h]
      simp [Covers]
    | some last =>
      obtain ⟨hmem, hmax⟩ := h.last_spec hlast
      have hne := h.nonempty last hmem
      dsimp only
      split_ifs with hpast htouch
      · -- the range extends the last run
        refine ⟨h.insertKey (by omega) (fun run hrun hlt => h.gap run hrun last hmem hlt) (fun run hrun hlt => ?_),
          fun r => ?_⟩
        · have := hmax run hrun
          omega
        · rw [covers_insertKey h]
          constructor
          · rintro (hr | ⟨run, hrun, -, hr⟩)
            · rcases Nat.lt_or_ge r last.2 with hlt | hge
              · exact .inl ⟨last, hmem, hr.1, hlt⟩
              · exact .inr ⟨by omega, hr.2⟩
            · exact .inl ⟨run, hrun, hr⟩
          · rintro (⟨run, hrun, hr⟩ | hr)
            · by_cases hsame : run.1 = last.1
              · rw [h.ascending.eq_of_key hrun hmem hsame] at hr
                exact .inl ⟨hr.1, by omega⟩
              · exact .inr ⟨run, hrun, hsame, hr⟩
            · exact .inl ⟨by omega, hr.2⟩
      · -- the range opens a run of its own
        refine ⟨h.insertKey (by omega) (fun run hrun hlt => ?_) (fun run hrun hlt => ?_), fun r => ?_⟩
        · have := hmax run hrun
          omega
        · have := hmax run hrun
          omega
        · rw [covers_insertKey h]
          constructor
          · rintro (hr | ⟨run, hrun, -, hr⟩)
            · exact .inr hr
            · exact .inl ⟨run, hrun, hr⟩
          · rintro (⟨run, hrun, hr⟩ | hr)
            · have := hmax run hrun
              exact .inr ⟨run, hrun, by omega, hr⟩
            · exact .inl hr
      · exact merge_spec h (by omega)

/-! ## Removal -/

variable {cutStart cutStop : Nat}

def cutBefore (cutStart : Nat) (runs : DefinedRegisters) (run : Nat × Nat) : DefinedRegisters :=
  if run.1 < cutStart then Lib.insertKey run.1 cutStart (Lib.removeKey run.1 runs) else Lib.removeKey run.1 runs

theorem mem_cutBefore (h : Canonical runs) (cutStart : Nat) (run other : Nat × Nat) : other ∈ cutBefore cutStart runs run ↔
    (other ∈ runs ∧ other.1 ≠ run.1) ∨ (run.1 < cutStart ∧ other = (run.1, cutStart)) := by
  unfold cutBefore
  split_ifs with hbefore
  · rw [mem_insertKey (h.removeKey run.1).ascending, mem_removeKey]
    constructor
    · rintro (rfl | ⟨hother, -⟩)
      · exact .inr ⟨hbefore, rfl⟩
      · exact .inl hother
    · rintro (hother | ⟨-, rfl⟩)
      · exact .inr ⟨hother, hother.2⟩
      · exact .inl rfl
  · rw [mem_removeKey]
    exact ⟨.inl, fun hother => hother.elim id fun hother => absurd hother.1 hbefore⟩

theorem canonical_cutBefore (cutStart : Nat) (h : Canonical runs) (hrun : run ∈ runs) (hover : cutStart < run.2) :
    Canonical (cutBefore cutStart runs run) := by
  unfold cutBefore
  split_ifs with hbefore
  · refine (h.removeKey run.1).insertKey hbefore (fun other hother hlt => ?_) (fun other hother hlt => ?_)
    · exact h.gap other ((mem_removeKey other).1 hother).1 run hrun hlt
    · have := h.gap run hrun other ((mem_removeKey other).1 hother).1 hlt
      omega
  · exact h.removeKey run.1

theorem Canonical.beside (h : Canonical runs) (hrun : run ∈ runs) {other : Nat × Nat} (hother : other ∈ runs)
    (hne : other.1 ≠ run.1) : other.2 < run.1 ∨ run.2 < other.1 :=
  (Nat.lt_or_gt_of_ne hne).imp (h.gap other hother run hrun) (h.gap run hrun other hother)

theorem mem_cut (h : Canonical runs) (hrun : run ∈ runs) (hover : run.1 < cutStop) (hover' : cutStart < run.2)
    (other : Nat × Nat) : other ∈ cut cutStart cutStop runs run ↔ (other ∈ runs ∧ other.1 ≠ run.1) ∨
      (run.1 < cutStart ∧ other = (run.1, cutStart)) ∨ (cutStop < run.2 ∧ other = (cutStop, run.2)) := by
  have hmem := mem_cutBefore h cutStart run
  have hcanonical := canonical_cutBefore cutStart h hrun hover'
  show other ∈ (if cutStop < run.2 then Lib.insertKey cutStop run.2 (cutBefore cutStart runs run)
    else cutBefore cutStart runs run) ↔ _
  split_ifs with hafter
  · rw [mem_insertKey hcanonical.ascending, hmem]
    constructor
    · rintro (rfl | ⟨hother | hother, -⟩)
      · exact .inr (.inr ⟨hafter, rfl⟩)
      · exact .inl hother
      · exact .inr (.inl hother)
    · rintro (hother | ⟨hbefore, rfl⟩ | ⟨-, rfl⟩)
      · refine .inr ⟨.inl hother, ?_⟩
        have := h.beside hrun hother.1 hother.2
        have := h.nonempty other hother.1
        omega
      · exact .inr ⟨.inr ⟨hbefore, rfl⟩, Nat.ne_of_lt hover⟩
      · exact .inl rfl
  · rw [hmem]
    exact or_congr_right ⟨.inl, fun hother => hother.elim id fun hother => absurd hother.1 hafter⟩

theorem cut_spec (h : Canonical runs) (hrun : run ∈ runs) (hover : run.1 < cutStop) (hover' : cutStart < run.2)
    (hne : cutStart < cutStop) : Canonical (cut cutStart cutStop runs run) ∧
      (∀ r, Covers (cut cutStart cutStop runs run) r ↔
        Covers runs r ∧ ¬(run.1 ≤ r ∧ r < run.2 ∧ cutStart ≤ r ∧ r < cutStop)) ∧
      ∀ other ∈ runs, other ≠ run → other ∈ cut cutStart cutStop runs run := by
  have hmem := mem_cut h hrun hover hover'
  have hmem' := mem_cutBefore h cutStart run
  have hkeep : ∀ other ∈ runs, other ≠ run → other ∈ cut cutStart cutStop runs run := fun other hother hother' =>
    (hmem other).2 (.inl ⟨hother, fun heq => hother' (h.ascending.eq_of_key hother hrun heq)⟩)
  refine ⟨?_, fun r => ?_, hkeep⟩
  · show Canonical (if cutStop < run.2 then Lib.insertKey cutStop run.2 (cutBefore cutStart runs run)
      else cutBefore cutStart runs run)
    have hcanonical := canonical_cutBefore cutStart h hrun hover'
    split_ifs with hafter
    · refine hcanonical.insertKey hafter (fun other hother hlt => ?_) (fun other hother hlt => ?_)
      · rcases (hmem' other).1 hother with ⟨hother, hne'⟩ | ⟨-, rfl⟩
        · have := h.beside hrun hother hne'
          omega
        · exact hne
      · rcases (hmem' other).1 hother with ⟨hother, hne'⟩ | ⟨-, rfl⟩
        · have := h.beside hrun hother hne'
          have := h.nonempty other hother
          omega
        · exact absurd hlt (Nat.lt_asymm hover)
    · exact hcanonical
  · constructor
    · rintro ⟨other, hother, hr, hr'⟩
      rcases (hmem other).1 hother with ⟨hother, hne'⟩ | ⟨-, rfl⟩ | ⟨-, rfl⟩
      · have := h.beside hrun hother hne'
        exact ⟨⟨other, hother, hr, hr'⟩, by omega⟩
      · exact ⟨⟨run, hrun, hr, hr'.trans hover'⟩, fun hcut => absurd hr' (Nat.not_lt.2 hcut.2.2.1)⟩
      · exact ⟨⟨run, hrun, (Nat.le_of_lt hover).trans hr, hr'⟩, fun hcut => absurd hcut.2.2.2 (Nat.not_lt.2 hr)⟩
    · rintro ⟨⟨other, hother, hr, hr'⟩, hcut⟩
      by_cases hsame : other = run
      · subst hsame
        rcases Nat.lt_or_ge r cutStart with hlt | hge
        · exact ⟨(other.1, cutStart), (hmem _).2 (.inr (.inl ⟨by omega, rfl⟩)), hr, hlt⟩
        · have hafter : cutStop ≤ r := Nat.not_lt.1 fun hlt => hcut ⟨hr, hr', hge, hlt⟩
          exact ⟨(cutStop, other.2), (hmem _).2 (.inr (.inr ⟨by omega, rfl⟩)), hafter, hr'⟩
      · exact ⟨other, hkeep other hother hsame, hr, hr'⟩

/-- The runs the walk back from the cut's end collects are those that overlap it. -/
theorem mem_overlapping (h : Canonical runs) (cutStart cutStop : Nat) (run : Nat × Nat) :
    run ∈ (runs.filter (·.1 < cutStop)).reverse.takeWhile (cutStart < ·.2) ↔
      run ∈ runs ∧ run.1 < cutStop ∧ cutStart < run.2 := by
  have hwalk : (runs.filter (·.1 < cutStop)).reverse.Pairwise
      fun a b => decide (cutStart < b.2) → decide (cutStart < a.2) := by
    refine List.pairwise_reverse.2 ((h.ascending.filter _).imp_of_mem fun {a b} ha hb hab hlt => ?_)
    have hgap := h.gap a (List.mem_of_mem_filter ha) b (List.mem_of_mem_filter hb) hab
    have hne := h.nonempty b (List.mem_of_mem_filter hb)
    simp only [decide_eq_true_eq] at hlt ⊢
    omega
  have htake := StorageRunIndex.filter_takeWhile hwalk fun _ _ hq => hq
  have hall : ∀ a ∈ (runs.filter (·.1 < cutStop)).reverse.takeWhile (cutStart < ·.2), decide (cutStart < a.2) :=
    fun a ha => List.mem_takeWhile_imp (p := fun a : Nat × Nat => decide (cutStart < a.2)) ha
  rw [List.filter_eq_self.2 hall] at htake
  rw [htake, List.mem_filter, List.mem_reverse, List.mem_filter]
  simp only [decide_eq_true_eq, and_assoc]

theorem nodup_overlapping (h : Canonical runs) (cutStart cutStop : Nat) :
    ((runs.filter (·.1 < cutStop)).reverse.takeWhile (cutStart < ·.2)).Nodup := by
  have hsorted : runs.Pairwise (·.1 < ·.1) := h.ascending
  have hnodup : runs.Nodup := hsorted.imp fun {a b} hlt heq => by
    rw [heq] at hlt
    exact Nat.lt_irrefl _ hlt
  exact (List.nodup_reverse.2 (hnodup.filter _)).sublist (List.takeWhile_sublist _)

/-- What cutting some runs leaves. -/
structure Cut (runs : DefinedRegisters) (cutStart cutStop : Nat) (pre : List (Nat × Nat)) (s : DefinedRegisters) : Prop where
  canonical : Canonical s
  covers : ∀ r, Covers s r ↔ Covers runs r ∧ ¬((∃ run ∈ pre, run.1 ≤ r ∧ r < run.2) ∧ cutStart ≤ r ∧ r < cutStop)
  keeps : ∀ run ∈ runs, run ∉ pre → run ∈ s

theorem remove_spec (h : Canonical runs) (start len : Nat) : Canonical (remove runs start len) ∧
    ∀ r, Covers (remove runs start len) r ↔ Covers runs r ∧ ¬(start ≤ r ∧ r < saturatingAddUsize start len) := by
  unfold remove
  dsimp only
  by_cases hempty : saturatingAddUsize start len ≤ start
  · rw [if_pos hempty]
    exact ⟨h, fun r => ⟨fun hr => ⟨hr, fun hcut => by omega⟩, And.left⟩⟩
  · rw [if_neg hempty]
    generalize saturatingAddUsize start len = stop at hempty ⊢
    have hover := mem_overlapping h start stop
    have hnodup := nodup_overlapping h start stop
    generalize (runs.filter (·.1 < stop)).reverse.takeWhile (start < ·.2) = overlapping at hover hnodup ⊢
    have hcut : Cut runs start stop overlapping (overlapping.foldl (cut start stop) runs) := by
      refine foldl_inv (Cut runs start stop) (fun pre run post s hlist hs => ?_)
        ⟨h, fun r => by simp, fun run hrun _ => hrun⟩
      obtain ⟨hrun, hlt, hlt'⟩ := (hover run).1 (by rw [hlist]; simp)
      have hfresh : run ∉ pre := fun hpre => by
        rw [hlist] at hnodup
        exact (List.nodup_append.1 hnodup).2.2 run hpre run List.mem_cons_self rfl
      obtain ⟨hcanonical, hcovers, hkeeps⟩ := cut_spec hs.canonical (hs.keeps run hrun hfresh) hlt hlt' (by omega)
      refine ⟨hcanonical, fun r => ?_, fun other hother hnot => ?_⟩
      · rw [hcovers, hs.covers]
        simp only [List.mem_append, List.mem_singleton, or_and_right, exists_or, exists_eq_left]
        rw [and_assoc, ← not_or]
        simp only [and_assoc]
      · simp only [List.mem_append, List.mem_singleton, not_or] at hnot
        exact hkeeps other (hs.keeps other hother hnot.1) hnot.2
    refine ⟨hcut.canonical, fun r => ?_⟩
    rw [hcut.covers]
    refine and_congr_right fun ⟨run, hrun, hr, hr'⟩ => not_congr ⟨And.right, fun hin => ⟨⟨run, ?_, hr, hr'⟩, hin⟩⟩
    exact (hover run).2 ⟨hrun, by omega, by omega⟩

/-! ## Runs of operations -/

inductive Operation where
  | insert (start len : Nat)
  | remove (start len : Nat)
  | set (start len : Nat) (defined : Bool)

def Operation.apply (runs : DefinedRegisters) : Operation → DefinedRegisters
  | insert start len => DefinedRegisters.insert runs start len
  | remove start len => DefinedRegisters.remove runs start len
  | set start len defined => DefinedRegisters.set runs start len defined

def Operation.plain (registers : Set Nat) : Operation → Set Nat
  | insert start len | set start len true => registers ∪ {r | start ≤ r ∧ r < start + len}
  | remove start len | set start len false => registers \ {r | start ≤ r ∧ r < start + len}

/-- The runs cover the numbers of the plain set, up to where ends saturate. -/
def Represents (runs : DefinedRegisters) (registers : Set Nat) : Prop :=
  ∀ r < usizeLimit - 1, Covers runs r ↔ r ∈ registers

theorem u32Limit_lt : u32Limit < usizeLimit - 1 := by decide

theorem lt_saturatingAddUsize {r len : Nat} (hr : r < usizeLimit - 1) :
    r < saturatingAddUsize start len ↔ r < start + len := by
  unfold saturatingAddUsize
  omega

theorem insert_represents {registers : Set Nat} (h : Canonical runs) (hset : Represents runs registers) (start len : Nat) :
    Canonical (insert runs start len) ∧
      Represents (insert runs start len) (registers ∪ {r | start ≤ r ∧ r < start + len}) := by
  obtain ⟨hcanonical, hcovers⟩ := insert_spec h start len
  refine ⟨hcanonical, fun r hr => ?_⟩
  rw [hcovers, hset r hr, lt_saturatingAddUsize hr]
  rfl

theorem remove_represents {registers : Set Nat} (h : Canonical runs) (hset : Represents runs registers) (start len : Nat) :
    Canonical (remove runs start len) ∧
      Represents (remove runs start len) (registers \ {r | start ≤ r ∧ r < start + len}) := by
  obtain ⟨hcanonical, hcovers⟩ := remove_spec h start len
  refine ⟨hcanonical, fun r hr => ?_⟩
  rw [hcovers, hset r hr, lt_saturatingAddUsize hr]
  rfl

theorem apply_represents {registers : Set Nat} (h : Canonical runs) (hset : Represents runs registers)
    (operation : Operation) :
    Canonical (operation.apply runs) ∧ Represents (operation.apply runs) (operation.plain registers) := by
  cases operation with
  | insert start len => exact insert_represents h hset start len
  | remove start len => exact remove_represents h hset start len
  | set start len defined =>
    cases defined with
    | true => exact insert_represents h hset start len
    | false => exact remove_represents h hset start len

theorem run_represents (operations : List Operation) (h : Canonical runs) {registers : Set Nat}
    (hset : Represents runs registers) :
    Canonical (operations.foldl Operation.apply runs) ∧
      Represents (operations.foldl Operation.apply runs) (operations.foldl Operation.plain registers) := by
  induction operations generalizing runs registers with
  | nil => exact ⟨h, hset⟩
  | cons operation operations ih =>
    obtain ⟨hcanonical, hrepresents⟩ := apply_represents h hset operation
    exact ih hcanonical hrepresents

theorem canonical_nil : Canonical [] :=
  ⟨.nil, fun _ hrun => absurd hrun List.not_mem_nil, fun _ hrun => absurd hrun List.not_mem_nil⟩

theorem represents_empty : Represents [] ∅ := fun r _ =>
  iff_of_false (fun ⟨_, hrun, _⟩ => List.not_mem_nil hrun) (Set.notMem_empty r)

def LeastOf (registers : Set Nat) : Option Nat → Prop
  | some register => IsLeast registers register
  | none => registers = ∅

/-- The queries answer what the plain set does. A read lies in the register space, as its callers check. -/
structure Agrees (runs : DefinedRegisters) (registers : Set Nat) : Prop where
  contains : ∀ register < u32Limit, DefinedRegisters.contains runs register = true ↔ register ∈ registers
  firstUndefined : ∀ start len, start + len ≤ u32Limit →
    LeastOf {r | (start ≤ r ∧ r < start + len) ∧ r ∉ registers} (DefinedRegisters.firstUndefined runs start len)
  firstUndefinedStrided : ∀ start count stride, (∀ i < count, start + i * stride < u32Limit) →
    LeastOf {r | (∃ i < count, r = start + i * stride) ∧ r ∉ registers}
      (DefinedRegisters.firstUndefinedStrided runs start count stride)
  firstDefined : ∀ start len, start < u32Limit → (∀ r ∈ registers, start ≤ r → r < start + len → r < u32Limit) →
    ∃ answer, DefinedRegisters.firstDefined runs start len = some answer ∧
      LeastOf {r | (start ≤ r ∧ r < start + len) ∧ r ∈ registers} answer

theorem asReg_of_lt {r : Nat} (h : r < u32Limit) : asReg r = r := Nat.mod_eq_of_lt h

section
variable {registers : Set Nat}

theorem leastOf_firstUndefined (h : Canonical runs) (hset : Represents runs registers) (start len : Nat)
    (hspace : start + len ≤ u32Limit) :
    LeastOf {r | (start ≤ r ∧ r < start + len) ∧ r ∉ registers} (firstUndefined runs start len) := by
  obtain ⟨hsome, hnone⟩ := firstUndefined_spec h start len
  cases hanswer : firstUndefined runs start len with
  | none =>
    refine Set.eq_empty_iff_forall_notMem.2 fun r ⟨⟨hr, hr'⟩, hfree⟩ => hfree ?_
    have hlt : r < usizeLimit - 1 := (hr'.trans_le hspace).trans u32Limit_lt
    exact (hset r hlt).1 (hnone hanswer r hr ((lt_saturatingAddUsize hlt).2 hr'))
  | some answer =>
    obtain ⟨register, rfl, hle, hlt, hfree, hfirst⟩ := hsome answer hanswer
    have hrange : register < start + len := hlt.trans_le (min_le_left _ _)
    have hlimit : register < u32Limit := hrange.trans_le hspace
    rw [asReg_of_lt hlimit]
    refine ⟨⟨⟨hle, hrange⟩, fun hin => hfree ((hset register (hlimit.trans u32Limit_lt)).2 hin)⟩, fun r ⟨⟨hr, hr'⟩, hfree'⟩ => ?_⟩
    by_contra hbefore
    have hcovers := not_not.1 (hfirst r hr (Nat.not_le.1 hbefore))
    exact hfree' ((hset r ((hr'.trans_le hspace).trans u32Limit_lt)).1 hcovers)

theorem leastOf_firstUndefinedStrided (h : Canonical runs) (hset : Represents runs registers) {count stride : Nat}
    (hspace : ∀ i < count, start + i * stride < u32Limit) :
    LeastOf {r | (∃ i < count, r = start + i * stride) ∧ r ∉ registers}
      (firstUndefinedStrided runs start count stride) := by
  obtain ⟨hsome, hnone⟩ := firstUndefinedFrom_spec h start count stride 0
    fun i hi => absurd hi (Nat.not_lt_zero i)
  unfold firstUndefinedStrided
  cases hanswer : firstUndefinedFrom runs start count stride 0 with
  | none =>
    refine Set.eq_empty_iff_forall_notMem.2 ?_
    rintro _ ⟨⟨i, hi, rfl⟩, hfree⟩
    exact hfree ((hset _ ((hspace i hi).trans u32Limit_lt)).1 (hnone hanswer i hi))
  | some answer =>
    obtain ⟨i, hi, rfl, hfree, hfirst⟩ := hsome answer hanswer
    rw [asReg_of_lt (hspace i hi)]
    refine ⟨⟨⟨i, hi, rfl⟩, fun hin => hfree ((hset _ ((hspace i hi).trans u32Limit_lt)).2 hin)⟩, ?_⟩
    rintro _ ⟨⟨j, hj, rfl⟩, hfree'⟩
    rcases Nat.lt_or_ge j i with hbefore | hafter
    · exact absurd ((hset _ ((hspace j hj).trans u32Limit_lt)).1 (hfirst j hbefore)) hfree'
    · exact Nat.add_le_add_left (Nat.mul_le_mul_right stride hafter) start

theorem leastOf_firstDefined (h : Canonical runs) (hset : Represents runs registers) {len : Nat} (hstart : start < u32Limit)
    (hspace : ∀ r ∈ registers, start ≤ r → r < start + len → r < u32Limit) :
    ∃ answer, firstDefined runs start len = some answer ∧
      LeastOf {r | (start ≤ r ∧ r < start + len) ∧ r ∈ registers} answer := by
  obtain ⟨answer, hanswer, hsome, hnone⟩ :=
    firstDefined_spec h len ((hstart.trans u32Limit_lt).trans_le (Nat.sub_le _ _))
  refine ⟨answer, hanswer, ?_⟩
  cases answer with
  | none =>
    refine Set.eq_empty_iff_forall_notMem.2 fun r ⟨⟨hr, hr'⟩, hin⟩ => ?_
    have hlt : r < usizeLimit - 1 := (hspace r hin hr hr').trans u32Limit_lt
    exact hnone rfl r hr ((lt_saturatingAddUsize hlt).2 hr') ((hset r hlt).2 hin)
  | some answer =>
    obtain ⟨register, rfl, hle, hlt, hin, hfirst⟩ := hsome answer rfl
    have hrange : register < start + len := hlt.trans_le (min_le_left _ _)
    have hdefined : register ∈ registers := (hset register (hlt.trans_le (min_le_right _ _))).1 hin
    rw [asReg_of_lt (hspace register hdefined hle hrange)]
    refine ⟨⟨⟨hle, hrange⟩, hdefined⟩, fun r ⟨⟨hr, hr'⟩, hin'⟩ => ?_⟩
    by_contra hbefore
    have hlimit : r < usizeLimit - 1 := (hspace r hin' hr hr').trans u32Limit_lt
    exact hfirst r hr (Nat.not_le.1 hbefore) ((hset r hlimit).2 hin')

theorem contains_iff (h : Canonical runs) (hset : Represents runs registers) (hregister : register < u32Limit) :
    contains runs register = true ↔ register ∈ registers := by
  have hleast := leastOf_firstUndefined h hset register 1 hregister
  unfold contains
  cases hanswer : firstUndefined runs register 1 with
  | none =>
    rw [hanswer] at hleast
    refine iff_of_true rfl ?_
    by_contra hfree
    have hmem : register ∈ {r | (register ≤ r ∧ r < register + 1) ∧ r ∉ registers} :=
      ⟨⟨le_rfl, Nat.lt_succ_self register⟩, hfree⟩
    rw [show {r | (register ≤ r ∧ r < register + 1) ∧ r ∉ registers} = ∅ from hleast] at hmem
    exact hmem
  | some r =>
    rw [hanswer] at hleast
    obtain ⟨⟨hr, hr'⟩, hfree⟩ := hleast.1
    obtain rfl : r = register := by omega
    exact iff_of_false Bool.false_ne_true hfree

end

/-- Any operations leave canonical runs whose queries agree with the plain set under the same operations. -/
theorem operations_agree (operations : List Operation) :
    Canonical (operations.foldl Operation.apply []) ∧
      Agrees (operations.foldl Operation.apply []) (operations.foldl Operation.plain ∅) := by
  obtain ⟨h, hset⟩ := run_represents operations canonical_nil represents_empty
  exact ⟨h, {
    contains := fun register => contains_iff h hset
    firstUndefined := leastOf_firstUndefined h hset
    firstUndefinedStrided := fun start count stride => leastOf_firstUndefinedStrided h hset
    firstDefined := fun start len => leastOf_firstDefined h hset }⟩

end DefinedRegisters

end Rumoca.Solve
