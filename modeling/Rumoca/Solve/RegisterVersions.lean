import Rumoca.Lib.SortedMap
import Rumoca.Solve.ReadRanges
/-!
# Register versions

The inventory maps ranges of registers to the write that produced them, with
the offset of each piece in its write: a new write splits and covers the pieces
that it overlaps. `Version` is the value that a register holds, and a view of a
strided range gives the version of every register it selects.
-/

namespace Rumoca.Solve

open Rumoca.Lib

variable {T : Type}

/-- The registers of a piece go up to `stop`; `offset` is its place in what `family` wrote. -/
structure RegisterVersionPiece (T : Type) where
  stop : Nat
  offset : Nat
  family : T
deriving DecidableEq, Repr

abbrev RegisterVersionInventory (T : Type) := List (Nat × RegisterVersionPiece T)

namespace RegisterVersionInventory

/-- The pieces that meet the registers from `start` to `stop`, looked up from the last piece up to `start`. -/
def meeting (inventory : RegisterVersionInventory T) (start stop : Nat) : RegisterVersionInventory T :=
  let first := (lastUpTo start inventory).elim start (·.1)
  ((inventory.filter (first ≤ ·.1)).takeWhile (·.1 < stop)).filter (start < ·.2.stop)

/-- A piece without its registers from `start` to `stop`. -/
def carve (start stop : Nat) (inventory : RegisterVersionInventory T) (entry : Nat × RegisterVersionPiece T) :
    RegisterVersionInventory T :=
  let (key, piece) := entry
  let inventory := removeKey key inventory
  let inventory := if key < start then insertKey key { piece with stop := start } inventory else inventory
  if stop < piece.stop then insertKey stop { piece with offset := piece.offset + (stop - key) } inventory else inventory

def install (inventory : RegisterVersionInventory T) (start : Nat) (count : Nat) (family : T) :
    RegisterVersionInventory T :=
  if count = 0 then inventory
  else
    let stop := start + count
    insertKey start { stop, offset := 0, family } ((meeting inventory start stop).foldl (carve start stop) inventory)

/-- Whether a position that the stride selects lies from `start` to `stop`. -/
def selectedGap (start stop stride lanes : Nat) : Bool :=
  if stop ≤ start then false
  else if stride = 0 then start < lanes
  else
    let step := stride * lanes
    let block := start / step * step
    let first := if start < block + lanes then start else block + step
    first < stop

abbrev ViewPiece (T : Type) := Nat × Nat × RegisterVersionPiece T

def viewPiece (start stop stride lanes : Nat) (view : List (ViewPiece T) × Nat)
    (entry : Nat × RegisterVersionPiece T) : Option (List (ViewPiece T) × Nat) :=
  let (pieces, cursor) := view
  let (key, piece) := entry
  let low := max key start - start
  let high := min piece.stop stop - start
  if selectedGap cursor low stride lanes then none
  else some (pieces ++ [(low, high, { piece with offset := piece.offset + (start + low - key) })], high)

def stridedView (inventory : RegisterVersionInventory T) (start : Nat) (count stride lanes : Nat) :
    Option (List (ViewPiece T)) :=
  if count = 0 then some []
  else do
    let last ← checkedUsize ((count - 1) * stride)
    let elements ← checkedUsize (last + 1)
    let width ← checkedUsize (elements * lanes)
    let stop := start + width
    if u32Limit < stop then none
    let (pieces, cursor) ← (meeting inventory start stop).foldlM (viewPiece start stop stride lanes) ([], 0)
    if selectedGap cursor width stride lanes then none
    return pieces

def overlaps (inventory : RegisterVersionInventory T) (start : Nat) (count : Nat) : Bool :=
  !(meeting inventory start (start + count)).isEmpty

/-! ## Installing a write -/

/-- The pieces have registers and do not overlap. -/
structure Disjoint (inventory : RegisterVersionInventory T) : Prop where
  ascending : Ascending inventory
  nonempty : ∀ e ∈ inventory, e.1 < e.2.stop
  apart : ∀ e ∈ inventory, ∀ f ∈ inventory, e.1 < f.1 → e.2.stop ≤ f.1

/-- The register holds what `family` wrote at `offset`. -/
def Version (inventory : RegisterVersionInventory T) (r : Nat) (family : T) (offset : Nat) : Prop :=
  ∃ e ∈ inventory, e.1 ≤ r ∧ r < e.2.stop ∧ family = e.2.family ∧ offset = e.2.offset + (r - e.1)

variable {inventory : RegisterVersionInventory T}

theorem Disjoint.nil : Disjoint ([] : RegisterVersionInventory T) := ⟨List.Pairwise.nil, by simp, by simp⟩

theorem Disjoint.unique (h : Disjoint inventory) {e f : Nat × RegisterVersionPiece T} (he : e ∈ inventory)
    (hf : f ∈ inventory) {r : Nat} (her : e.1 ≤ r ∧ r < e.2.stop) (hfr : f.1 ≤ r ∧ r < f.2.stop) : e = f := by
  refine h.ascending.eq_of_key he hf ?_
  rcases Nat.lt_trichotomy e.1 f.1 with hlt | heq | hgt
  · have := h.apart e he f hf hlt
    omega
  · exact heq
  · have := h.apart f hf e he hgt
    omega

theorem Disjoint.mem_meeting (h : Disjoint inventory) (start stop : Nat) (e : Nat × RegisterVersionPiece T) :
    e ∈ meeting inventory start stop ↔ e ∈ inventory ∧ e.1 < stop ∧ start < e.2.stop := by
  unfold meeting
  rw [List.mem_filter, (show Ascending _ from h.ascending.filter _).mem_takeWhile, List.mem_filter]
  simp only [decide_eq_true_eq]
  constructor
  · rintro ⟨⟨⟨he, -⟩, hstop⟩, hstart⟩
    exact ⟨he, hstop, hstart⟩
  · rintro ⟨he, hstop, hstart⟩
    refine ⟨⟨⟨he, ?_⟩, hstop⟩, hstart⟩
    -- an earlier piece ends before the last one up to `start` begins
    cases hlast : lastUpTo start inventory with
    | none => exact (lastUpTo_eq_none hlast e he).le
    | some last =>
      obtain ⟨hmem, hle, -⟩ := h.ascending.lastUpTo_eq_some hlast
      simp only [Option.elim]
      by_contra hlt
      have := h.apart e he last hmem (by omega)
      omega

section carve

variable {start stop : Nat} {entry : Nat × RegisterVersionPiece T}

theorem mem_carve (h : Disjoint inventory) (hentry : entry ∈ inventory) (hmeets : entry.1 < stop)
    (e : Nat × RegisterVersionPiece T) : e ∈ carve start stop inventory entry ↔
      (e ∈ inventory ∧ e.1 ≠ entry.1) ∨ (entry.1 < start ∧ e = (entry.1, { entry.2 with stop := start })) ∨
      (stop < entry.2.stop ∧ e = (stop, { entry.2 with offset := entry.2.offset + (stop - entry.1) })) := by
  obtain ⟨key, piece⟩ := entry
  have hleft : Ascending (if key < start then insertKey key { piece with stop := start } (removeKey key inventory)
      else removeKey key inventory) := by
    split_ifs
    · exact (h.ascending.removeKey key).insertKey key _
    · exact h.ascending.removeKey key
  have hmem : ∀ e, e ∈ (if key < start then insertKey key { piece with stop := start } (removeKey key inventory)
      else removeKey key inventory) ↔
      (e ∈ inventory ∧ e.1 ≠ key) ∨ (key < start ∧ e = (key, { piece with stop := start })) := by
    intro e
    split_ifs with hlt
    · rw [mem_insertKey (h.ascending.removeKey key), mem_removeKey]
      simp only [hlt, true_and]
      tauto
    · rw [mem_removeKey]
      simp [hlt]
  unfold carve
  simp only
  by_cases hright : stop < piece.stop
  · rw [if_pos hright, mem_insertKey hleft, hmem]
    -- nothing else starts where the right part does
    have hother : ∀ e, (e ∈ inventory ∧ e.1 ≠ key) ∨ (key < start ∧ e = (key, { piece with stop := start })) →
        e.1 ≠ stop := by
      rintro e (⟨he, hne⟩ | ⟨-, rfl⟩) heq
      · rcases Nat.lt_or_gt_of_ne hne with hlt | hgt
        · have hmeets' : key < stop := hmeets
          omega
        · have := h.apart _ hentry e he hgt
          simp only at this
          omega
      · exact absurd heq (Nat.ne_of_lt hmeets)
    constructor
    · rintro (rfl | ⟨he, -⟩)
      · exact .inr (.inr ⟨hright, rfl⟩)
      · exact he.imp_right .inl
    · rintro (he | he | ⟨-, rfl⟩)
      · exact .inr ⟨.inl he, hother e (.inl he)⟩
      · exact .inr ⟨.inr he, hother e (.inr he)⟩
      · exact .inl rfl
  · rw [if_neg hright, hmem]
    simp [hright]

theorem ascending_carve (h : Disjoint inventory) : Ascending (carve start stop inventory entry) := by
  unfold carve
  simp only
  have hremoved := h.ascending.removeKey entry.1
  split_ifs
  · exact (hremoved.insertKey _ _).insertKey _ _
  · exact hremoved.insertKey _ _
  · exact hremoved.insertKey _ _
  · exact hremoved

theorem disjoint_carve (h : Disjoint inventory) (hentry : entry ∈ inventory) (hmeets : entry.1 < stop)
    (hrange : start < stop) (hstart : start < entry.2.stop) : Disjoint (carve start stop inventory entry) := by
  have hmem : ∀ e, e ∈ carve start stop inventory entry ↔ _ := mem_carve h hentry hmeets
  have hsize := h.nonempty entry hentry
  refine ⟨ascending_carve h, fun e he => ?_, fun e he f hf hlt => ?_⟩
  · rcases (hmem e).1 he with ⟨he, -⟩ | ⟨hleft, rfl⟩ | ⟨hright, rfl⟩
    · exact h.nonempty e he
    · exact hleft
    · exact hright
  · rcases (hmem e).1 he with ⟨he, hne⟩ | ⟨hleft, rfl⟩ | ⟨hright, rfl⟩ <;>
      rcases (hmem f).1 hf with ⟨hf, hnf⟩ | ⟨hleft', rfl⟩ | ⟨hright', rfl⟩
    · exact h.apart e he f hf hlt
    · exact h.apart e he entry hentry hlt
    · dsimp only at hlt ⊢
      rcases Nat.lt_or_gt_of_ne hne with hlt' | hgt
      · have := h.apart e he entry hentry hlt'
        omega
      · have := h.apart entry hentry e he hgt
        omega
    · dsimp only at hlt ⊢
      have := h.apart entry hentry f hf hlt
      omega
    · exact absurd hlt (Nat.lt_irrefl _)
    · exact hrange.le
    · dsimp only at hlt ⊢
      rcases Nat.lt_or_gt_of_ne hnf with hlt' | hgt
      · omega
      · exact h.apart entry hentry f hf hgt
    · dsimp only at hlt ⊢
      omega
    · exact absurd hlt (Nat.lt_irrefl _)

theorem version_carve (h : Disjoint inventory) (hentry : entry ∈ inventory) (hmeets : entry.1 < stop)
    (hstart : start < entry.2.stop) (r : Nat) (family : T) (offset : Nat) :
    Version (carve start stop inventory entry) r family offset ↔
      Version inventory r family offset ∧ ¬ ((entry.1 ≤ r ∧ r < entry.2.stop) ∧ start ≤ r ∧ r < stop) := by
  have hmem : ∀ e, e ∈ carve start stop inventory entry ↔ _ := mem_carve h hentry hmeets
  constructor
  · rintro ⟨e, he, hle, hlt, hfamily, hoffset⟩
    rcases (hmem e).1 he with ⟨he, hne⟩ | ⟨hleft, rfl⟩ | ⟨hright, rfl⟩
    · refine ⟨⟨e, he, hle, hlt, hfamily, hoffset⟩, fun hcovered => ?_⟩
      exact hne (congrArg Prod.fst (h.unique he hentry ⟨hle, hlt⟩ hcovered.1))
    · simp only at hle hlt hfamily hoffset
      exact ⟨⟨entry, hentry, hle, by omega, hfamily, hoffset⟩, by omega⟩
    · simp only at hle hlt hfamily hoffset
      exact ⟨⟨entry, hentry, by omega, hlt, hfamily, by omega⟩, by omega⟩
  · rintro ⟨⟨e, he, hle, hlt, hfamily, hoffset⟩, houtside⟩
    by_cases heq : e = entry
    · subst heq
      rcases Nat.lt_or_ge r start with hbefore | hafter
      · exact ⟨_, (hmem _).2 (.inr (.inl ⟨by omega, rfl⟩)), hle, hbefore, hfamily, hoffset⟩
      · have hright : stop ≤ r := by omega
        refine ⟨_, (hmem _).2 (.inr (.inr ⟨by omega, rfl⟩)), hright, hlt, hfamily, ?_⟩
        simp only
        omega
    · refine ⟨e, (hmem e).2 (.inl ⟨he, fun hkey => heq (h.ascending.eq_of_key he hentry hkey)⟩), hle, hlt, hfamily, hoffset⟩

theorem carve_all {entries : List (Nat × RegisterVersionPiece T)} (h : Disjoint inventory)
    (hentries : ∀ e ∈ entries, e ∈ inventory ∧ e.1 < stop ∧ start < e.2.stop)
    (hdistinct : entries.Pairwise (fun e f => e.1 ≠ f.1)) (hrange : start < stop) :
    Disjoint (entries.foldl (carve start stop) inventory) ∧ ∀ r family offset,
      Version (entries.foldl (carve start stop) inventory) r family offset ↔ Version inventory r family offset ∧
        ¬ ((∃ e ∈ entries, e.1 ≤ r ∧ r < e.2.stop) ∧ start ≤ r ∧ r < stop) := by
  induction entries generalizing inventory with
  | nil => exact ⟨h, by simp⟩
  | cons entry rest ih =>
    obtain ⟨hentry, hmeets, hstart⟩ := hentries entry List.mem_cons_self
    obtain ⟨hother, hdistinct⟩ := List.pairwise_cons.1 hdistinct
    have hrest : ∀ e ∈ rest, e ∈ carve start stop inventory entry ∧ e.1 < stop ∧ start < e.2.stop := fun e he => by
      obtain ⟨hmem, hfacts⟩ := hentries e (List.mem_cons_of_mem entry he)
      exact ⟨(mem_carve h hentry hmeets e).2 (.inl ⟨hmem, (hother e he).symm⟩), hfacts⟩
    obtain ⟨hdisjoint, hversion⟩ := ih (disjoint_carve h hentry hmeets hrange hstart) hrest hdistinct
    refine ⟨hdisjoint, fun r family offset => (hversion r family offset).trans ?_⟩
    rw [version_carve h hentry hmeets hstart, and_assoc, ← not_or, List.exists_mem_cons_iff]
    refine and_congr_right fun _ => not_congr ?_
    tauto

end carve

theorem Disjoint.meeting_distinct (h : Disjoint inventory) (start stop : Nat) :
    (meeting inventory start stop).Pairwise (fun e f => e.1 ≠ f.1) :=
  ((h.ascending.filter _).sublist ((List.filter_sublist).trans (List.takeWhile_sublist _))).imp Nat.ne_of_lt

theorem Disjoint.install (h : Disjoint inventory) (start : Nat) (count : Nat) (family : T) :
    Disjoint (install inventory start count family) ∧ ∀ r f offset,
      Version (install inventory start count family) r f offset ↔
        if start ≤ r ∧ r < start + count then f = family ∧ offset = r - start else Version inventory r f offset := by
  unfold RegisterVersionInventory.install
  split_ifs with hcount
  · subst hcount
    refine ⟨h, fun r f offset => ?_⟩
    rw [if_neg (by omega)]
  · have hrange : start < start + count := by omega
    obtain ⟨hdisjoint, hversion⟩ := carve_all h (fun e he => (h.mem_meeting start (start + count) e).1 he)
      (h.meeting_distinct start (start + count)) hrange
    set carved := (meeting inventory start (start + count)).foldl (carve start (start + count)) inventory
    -- no piece left meets the registers written
    have hclear : ∀ e ∈ carved, e.2.stop ≤ start ∨ start + count ≤ e.1 := by
      intro e he
      by_contra hmeets
      have hsize := hdisjoint.nonempty e he
      have hcovered : Version carved (max e.1 start) e.2.family (e.2.offset + (max e.1 start - e.1)) :=
        ⟨e, he, by omega, by omega, rfl, rfl⟩
      obtain ⟨⟨f, hf, hle, hlt, -⟩, hnot⟩ := (hversion _ _ _).1 hcovered
      exact hnot ⟨⟨f, (h.mem_meeting _ _ f).2 ⟨hf, by omega, by omega⟩, hle, hlt⟩, by omega, by omega⟩
    have hmem : ∀ e, e ∈ insertKey start { stop := start + count, offset := 0, family } carved ↔
        e = (start, { stop := start + count, offset := 0, family }) ∨ e ∈ carved := by
      intro e
      rw [mem_insertKey hdisjoint.ascending]
      refine or_congr_right ⟨And.left, fun he => ⟨he, fun hkey => ?_⟩⟩
      have := hdisjoint.nonempty e he
      have := hclear e he
      omega
    refine ⟨⟨hdisjoint.ascending.insertKey _ _, fun e he => ?_, fun e he f hf hlt => ?_⟩, fun r f offset => ?_⟩
    · rcases (hmem e).1 he with rfl | he
      · exact hrange
      · exact hdisjoint.nonempty e he
    · rcases (hmem e).1 he with rfl | he <;> rcases (hmem f).1 hf with rfl | hf
      · exact absurd hlt (Nat.lt_irrefl _)
      · have hsize := hdisjoint.nonempty f hf
        have := hclear f hf
        simp only at hlt ⊢
        omega
      · have := hclear e he
        simp only at hlt ⊢
        omega
      · exact hdisjoint.apart e he f hf hlt
    · split_ifs with hin
      · constructor
        · rintro ⟨e, he, hle, hlt, rfl, rfl⟩
          rcases (hmem e).1 he with rfl | he
          · exact ⟨rfl, by simp⟩
          · have := hclear e he
            omega
        · rintro ⟨rfl, rfl⟩
          exact ⟨_, (hmem _).2 (.inl rfl), hin.1, hin.2, rfl, by simp⟩
      · constructor
        · rintro ⟨e, he, hle, hlt, hfamily, hoffset⟩
          rcases (hmem e).1 he with rfl | he
          · exact absurd ⟨hle, hlt⟩ hin
          · exact ((hversion r f offset).1 ⟨e, he, hle, hlt, hfamily, hoffset⟩).1
        · intro hheld
          obtain ⟨e, he, hfacts⟩ := (hversion r f offset).2 ⟨hheld, fun hcovered => hin hcovered.2⟩
          exact ⟨e, (hmem e).2 (.inr he), hfacts⟩

/-! ## Views -/

theorem selectedGap_eq_false {start stop stride : Nat} (h : selectedGap start stop stride 1 = false) {position : Nat}
    (hselected : stride ∣ position) (hstart : start ≤ position) : stop ≤ position := by
  unfold selectedGap at h
  split_ifs at h with hempty hzero
  · omega
  · subst hzero
    have hposition : position = 0 := Nat.zero_dvd.1 hselected
    simp only [decide_eq_false_iff_not] at h
    omega
  · obtain ⟨k, rfl⟩ := hselected
    simp only [Nat.mul_one, decide_eq_false_iff_not, Nat.not_lt] at h
    refine h.trans ?_
    split_ifs with hblock
    · exact hstart
    · -- the next multiple after `start`
      have hlt : start / stride * stride < k * stride := by rw [Nat.mul_comm k]; omega
      have hk : start / stride < k := lt_of_mul_lt_mul_right hlt (Nat.zero_le _)
      calc start / stride * stride + stride = (start / stride + 1) * stride := by ring
        _ ≤ k * stride := Nat.mul_le_mul_right stride hk
        _ = stride * k := Nat.mul_comm k stride

def Views (inventory : RegisterVersionInventory T) (start stop : Nat) (pieces : List (ViewPiece T)) : Prop :=
  ∀ low high piece, (low, high, piece) ∈ pieces → low < high ∧ start + high ≤ stop ∧
    ∀ r, start + low ≤ r → r < start + high → Version inventory r piece.family (piece.offset + (r - (start + low)))

/-- The selected positions before `cursor` are in the pieces. -/
def Covers (stride : Nat) (pieces : List (ViewPiece T)) (cursor : Nat) : Prop :=
  ∀ position, stride ∣ position → position < cursor →
    ∃ low high piece, (low, high, piece) ∈ pieces ∧ low ≤ position ∧ position < high

theorem viewPiece_spec {start stop stride cursor cursor' : Nat} {pieces pieces' : List (ViewPiece T)}
    {entry : Nat × RegisterVersionPiece T} (hentry : entry ∈ inventory) (hmeets : entry.1 < stop)
    (hstart : start < entry.2.stop) (hsize : entry.1 < entry.2.stop) (hrange : start < stop)
    (h : viewPiece start stop stride 1 (pieces, cursor) entry = some (pieces', cursor'))
    (hviews : Views inventory start stop pieces) (hcovers : Covers stride pieces cursor) :
    Views inventory start stop pieces' ∧ Covers stride pieces' cursor' := by
  unfold viewPiece at h
  simp only at h
  split_ifs at h with hgap
  simp only [Option.some_inj, Prod.mk.injEq] at h
  obtain ⟨rfl, rfl⟩ := h
  refine ⟨fun low high piece hpiece => ?_, fun position hselected hlt => ?_⟩
  · rcases List.mem_append.1 hpiece with hpiece | hpiece
    · exact hviews low high piece hpiece
    · simp only [List.mem_singleton, Prod.mk.injEq] at hpiece
      obtain ⟨rfl, rfl, rfl⟩ := hpiece
      refine ⟨by omega, by omega, fun r hlow hhigh => ⟨entry, hentry, by omega, by omega, rfl, ?_⟩⟩
      simp only
      omega
  · rcases Nat.lt_or_ge position cursor with hbefore | hafter
    · obtain ⟨low, high, piece, hpiece, hfacts⟩ := hcovers position hselected hbefore
      exact ⟨low, high, piece, List.mem_append_left _ hpiece, hfacts⟩
    · have hlow := selectedGap_eq_false (Bool.eq_false_iff.2 hgap) hselected hafter
      exact ⟨_, _, _, List.mem_append_right _ (List.mem_singleton.2 rfl), hlow, hlt⟩

theorem viewPieces_spec {start stop stride cursor cursor' : Nat} {pieces pieces' : List (ViewPiece T)}
    {entries : List (Nat × RegisterVersionPiece T)} (hrange : start < stop)
    (hentries : ∀ e ∈ entries, e ∈ inventory ∧ e.1 < stop ∧ start < e.2.stop ∧ e.1 < e.2.stop)
    (h : entries.foldlM (viewPiece start stop stride 1) (pieces, cursor) = some (pieces', cursor'))
    (hviews : Views inventory start stop pieces) (hcovers : Covers stride pieces cursor) :
    Views inventory start stop pieces' ∧ Covers stride pieces' cursor' := by
  induction entries generalizing pieces cursor with
  | nil =>
    cases h
    exact ⟨hviews, hcovers⟩
  | cons entry rest ih =>
    obtain ⟨hentry, hmeets, hstart, hsize⟩ := hentries entry List.mem_cons_self
    rw [List.foldlM_cons] at h
    obtain ⟨⟨pieces₁, cursor₁⟩, hstep, h⟩ := Option.bind_eq_some_iff.1 h
    obtain ⟨hviews₁, hcovers₁⟩ := viewPiece_spec hentry hmeets hstart hsize hrange hstep hviews hcovers
    exact ih (fun e he => hentries e (List.mem_cons_of_mem entry he)) h hviews₁ hcovers₁

theorem Disjoint.stridedView (h : Disjoint inventory) {start count stride : Nat} {pieces : List (ViewPiece T)}
    (hview : stridedView inventory start count stride 1 = some pieces) :
    Views inventory start (start + ((count - 1) * stride + 1)) pieces ∧ ∀ term < count,
      ∃ low high piece, (low, high, piece) ∈ pieces ∧ low ≤ term * stride ∧ term * stride < high := by
  unfold RegisterVersionInventory.stridedView at hview
  split_ifs at hview with hcount
  · cases hview
    exact ⟨fun _ _ _ hmem => absurd hmem List.not_mem_nil, fun term hterm => by omega⟩
  · obtain ⟨last, hlast, hview⟩ := Option.bind_eq_some_iff.1 hview
    obtain ⟨elements, helements, hview⟩ := Option.bind_eq_some_iff.1 hview
    obtain ⟨width, hwidth, hview⟩ := Option.bind_eq_some_iff.1 hview
    have hlast' := checkedUsize_value hlast
    have helements' := checkedUsize_value helements
    have hwidth' := checkedUsize_value hwidth
    simp only at hview
    split_ifs at hview with hlimit
    · cases hview
    · obtain ⟨⟨pieces', cursor⟩, hfold, hview⟩ := Option.bind_eq_some_iff.1 hview
      simp only at hview
      split_ifs at hview with hgap
      · cases hview
      · cases hview
        have hentries : ∀ e ∈ meeting inventory start (start + width),
            e ∈ inventory ∧ e.1 < start + width ∧ start < e.2.stop ∧ e.1 < e.2.stop := fun e he => by
          obtain ⟨hmem, hmeets, hstart⟩ := (h.mem_meeting _ _ e).1 he
          exact ⟨hmem, hmeets, hstart, h.nonempty e hmem⟩
        obtain ⟨hviews, hcovers⟩ := viewPieces_spec (by omega) hentries hfold
          (fun _ _ _ hmem => absurd hmem List.not_mem_nil) (fun _ _ hlt => absurd hlt (Nat.not_lt_zero _))
        have hwidth : width = (count - 1) * stride + 1 := by omega
        refine ⟨hwidth ▸ hviews, fun term hterm => hcovers _ (Nat.dvd_mul_left stride term) ?_⟩
        by_contra hge
        have hpast := selectedGap_eq_false (Bool.eq_false_iff.2 hgap) (Nat.dvd_mul_left stride term) (Nat.not_lt.1 hge)
        have hle : term * stride ≤ (count - 1) * stride := Nat.mul_le_mul_right stride (by omega)
        omega

end RegisterVersionInventory

end Rumoca.Solve
