import Rumoca.Lib.Loop
import Rumoca.Solve.RegisterVersions
/-!
# Views of the register versions

The last write that covers a register, and what the inventory shows of it:
`view` walks a range from piece to piece, `strided_view` checks the gaps
between the pieces for registers that the stride selects. `none` is an overflow
or a division by zero; a view that the source refuses is `some none`.
-/

namespace Rumoca.Solve

open Rumoca.Lib

variable {T : Type}

/-! ## Writes -/

/-- One call of `install`. -/
structure RegisterWrite (T : Type) where
  start : Nat
  count : Nat
  family : T

namespace RegisterWrite

def InSpace (w : RegisterWrite T) : Prop := w.start < u32Limit ∧ w.start + w.count ≤ u32Limit

def Covers (w : RegisterWrite T) (r : Nat) : Prop := w.start ≤ r ∧ r < w.start + w.count

instance (w : RegisterWrite T) (r : Nat) : Decidable (w.Covers r) := inferInstanceAs (Decidable (_ ∧ _))

end RegisterWrite

/-- What the last write that covers a register put there: its family and the offset in it. -/
def lastWrite (writes : List (RegisterWrite T)) (r : Nat) : Option (T × Nat) :=
  (writes.reverse.find? (·.Covers r)).map fun w => (w.family, r - w.start)

namespace RegisterVersionInventory

def installAll (writes : List (RegisterWrite T)) : RegisterVersionInventory T :=
  writes.foldl (fun inventory w => install inventory w.start w.count w.family) []

/-! ## The views -/

/-- One turn of `view`: the pieces so far and the cursor. -/
def viewTurn (inventory : RegisterVersionInventory T) (start stop : Nat) (view : List (ViewPiece T) × Nat) :
    Option (Ctl (List (ViewPiece T) × Nat) (Option (List (ViewPiece T)))) :=
  let (pieces, cursor) := view
  if cursor < stop then
    match lastUpTo cursor inventory with
    | none => some (.done none)
    | some (key, piece) =>
      if piece.stop ≤ cursor then some (.done none)
      else
        let limit := min piece.stop stop
        some (.next (pieces ++ [(cursor - start, limit - start, { piece with offset := piece.offset + (cursor - key) })],
          limit))
  else some (.done (some pieces))

def view (inventory : RegisterVersionInventory T) (start count : Nat) : Option (Option (List (ViewPiece T))) :=
  match checkedUsize (start + count) with
  | none => some none
  | some stop => if u32Limit < stop then some none else loop (viewTurn inventory start stop) (count + 1) ([], start)

/-- `selected_gap`, with the arithmetic of `usize`. -/
def selectedGapChecked (start stop stride lanes : Nat) : Option Bool :=
  if stop ≤ start then some false
  else if stride = 0 then some (decide (start < lanes))
  else do
    let step ← checkedUsize (stride * lanes)
    if step = 0 then none
    else
      let block := start / step * step
      let edge ← checkedUsize (block + lanes)
      let first ← if start < edge then some start else checkedUsize (block + step)
      some (decide (first < stop))

def stridedPieces (start stop stride lanes : Nat) :
    List (Nat × RegisterVersionPiece T) → List (ViewPiece T) → (cursor : Nat) → Option (Option (List (ViewPiece T)))
  | [], pieces, cursor => do
    if ← selectedGapChecked cursor (stop - start) stride lanes then some none else some (some pieces)
  | (key, piece) :: rest, pieces, cursor => do
    let low := max key start - start
    let high := min piece.stop stop - start
    if ← selectedGapChecked cursor low stride lanes then some none
    else
      stridedPieces start stop stride lanes rest
        (pieces ++ [(low, high, { piece with offset := piece.offset + (start + low - key) })]) high

def stridedStop (start count stride lanes : Nat) : Option Nat := do
  let last ← checkedUsize ((count - 1) * stride)
  let elements ← checkedUsize (last + 1)
  let width ← checkedUsize (elements * lanes)
  checkedUsize (start + width)

/-- `strided_view`, with the arithmetic of `usize`. -/
def stridedViewChecked (inventory : RegisterVersionInventory T) (start count stride lanes : Nat) :
    Option (Option (List (ViewPiece T))) :=
  if count = 0 then some (some [])
  else
    match stridedStop start count stride lanes with
    | none => some none
    | some stop =>
      if u32Limit < stop then some none
      else stridedPieces start stop stride lanes (meeting inventory start stop) [] 0

/-! ## What the views show -/

def Installed (writes : List (RegisterWrite T)) (r : Nat) : Prop := ∃ w ∈ writes, w.Covers r

/-- The pieces follow one another from `low` to `high`. -/
def Tiles : (low : Nat) → List (ViewPiece T) → (high : Nat) → Prop
  | low, [], high => low = high
  | low, (first, next, _) :: rest, high => first = low ∧ low < next ∧ Tiles next rest high

def Shows (writes : List (RegisterWrite T)) (start : Nat) (pieces : List (ViewPiece T)) : Prop :=
  ∀ low high piece, (low, high, piece) ∈ pieces → ∀ r, start + low ≤ r → r < start + high →
    lastWrite writes r = some (piece.family, piece.offset + (r - (start + low)))

def Selected (start count stride lanes r : Nat) : Prop := ∃ k < count, ∃ l < lanes, r = start + (k * stride * lanes + l)

/-! ## The last write -/

theorem lastWrite_snoc (writes : List (RegisterWrite T)) (w : RegisterWrite T) (r : Nat) :
    lastWrite (writes ++ [w]) r = if w.Covers r then some (w.family, r - w.start) else lastWrite writes r := by
  unfold lastWrite
  rw [List.reverse_append, List.reverse_singleton, List.singleton_append, List.find?_cons]
  by_cases hcovers : w.Covers r <;> simp [hcovers]

theorem isSome_lastWrite {writes : List (RegisterWrite T)} {r : Nat} :
    (∃ family offset, lastWrite writes r = some (family, offset)) ↔ Installed writes r := by
  unfold lastWrite Installed
  constructor
  · rintro ⟨family, offset, hlast⟩
    obtain ⟨w, hw, -⟩ := Option.map_eq_some_iff.mp hlast
    exact ⟨w, List.mem_reverse.mp (List.mem_of_find?_eq_some hw), by simpa using List.find?_some hw⟩
  · rintro ⟨w, hw, hcovers⟩
    have hsome : (writes.reverse.find? (·.Covers r)).isSome :=
      List.find?_isSome.mpr ⟨w, List.mem_reverse.mpr hw, decide_eq_true hcovers⟩
    obtain ⟨w', hw'⟩ := Option.isSome_iff_exists.mp hsome
    exact ⟨w'.family, r - w'.start, by rw [hw', Option.map_some]⟩

theorem installAll_spec (writes : List (RegisterWrite T)) :
    Disjoint (installAll writes) ∧ ∀ r family offset,
      Version (installAll writes) r family offset ↔ lastWrite writes r = some (family, offset) := by
  refine foldl_inv (l := writes) (fun passed (inventory : RegisterVersionInventory T) => Disjoint inventory ∧
    ∀ r family offset, Version inventory r family offset ↔ lastWrite passed r = some (family, offset))
    (fun passed w rest inventory _ ⟨hdisjoint, hversion⟩ => ?_) ⟨.nil, fun r family offset => ?_⟩
  · obtain ⟨hdisjoint', hversion'⟩ := hdisjoint.install w.start w.count w.family
    refine ⟨hdisjoint', fun r family offset => (hversion' r family offset).trans ?_⟩
    rw [lastWrite_snoc]
    by_cases hcovers : w.Covers r
    · rw [if_pos hcovers, if_pos (show w.start ≤ r ∧ r < w.start + w.count from hcovers), Option.some_inj, Prod.mk.injEq]
      exact and_congr eq_comm eq_comm
    · rw [if_neg hcovers, if_neg (show ¬ (w.start ≤ r ∧ r < w.start + w.count) from hcovers)]
      exact hversion r family offset
  · simp [Version, lastWrite]

theorem held_iff_installed {writes : List (RegisterWrite T)} {r : Nat} :
    (∃ e ∈ installAll writes, e.1 ≤ r ∧ r < e.2.stop) ↔ Installed writes r := by
  rw [← isSome_lastWrite]
  constructor
  · rintro ⟨e, he, hle, hlt⟩
    exact ⟨_, _, ((installAll_spec writes).2 r _ _).mp ⟨e, he, hle, hlt, rfl, rfl⟩⟩
  · rintro ⟨family, offset, hlast⟩
    obtain ⟨e, he, hle, hlt, -⟩ := ((installAll_spec writes).2 r family offset).mpr hlast
    exact ⟨e, he, hle, hlt⟩

theorem installed_lt {writes : List (RegisterWrite T)} (hwrites : ∀ w ∈ writes, w.InSpace) {r : Nat}
    (h : Installed writes r) : r < u32Limit := by
  obtain ⟨w, hw, -, hlt⟩ := h
  have := (hwrites w hw).2
  omega

/-! ## The walk of `view` -/

section Tiles

variable {low high next : Nat} {pieces : List (ViewPiece T)}

theorem Tiles.snoc (h : Tiles low pieces high) (hlt : high < next) (piece : RegisterVersionPiece T) :
    Tiles low (pieces ++ [(high, next, piece)]) next := by
  induction pieces generalizing low with
  | nil => exact ⟨Eq.symm h, (show low = high from h) ▸ hlt, rfl⟩
  | cons p pieces ih => exact ⟨h.1, h.2.1, ih h.2.2⟩

theorem Tiles.exists_piece (h : Tiles low pieces high) {x : Nat} (hx : low ≤ x) (hlt : x < high) :
    ∃ first next piece, (first, next, piece) ∈ pieces ∧ first ≤ x ∧ x < next := by
  induction pieces generalizing low with
  | nil =>
    have : low = high := h
    omega
  | cons p pieces ih =>
    obtain ⟨first, next, piece⟩ := p
    obtain ⟨rfl, hnext, hrest⟩ := h
    by_cases hxn : x < next
    · exact ⟨first, next, piece, by simp, hx, hxn⟩
    · obtain ⟨first', next', piece', hmem, hxs⟩ := ih hrest (by omega)
      exact ⟨first', next', piece', by simp [hmem], hxs⟩

end Tiles

/-- What a view answers: pieces that tile the range and show the last writes, or a register that none covers. -/
def ViewAnswer (writes : List (RegisterWrite T)) (start count : Nat) : Option (List (ViewPiece T)) → Prop
  | none => ∃ r, start ≤ r ∧ r < start + count ∧ ¬ Installed writes r
  | some pieces => Tiles 0 pieces count ∧ Shows writes start pieces

theorem viewTurn_spec (writes : List (RegisterWrite T)) {start stop cursor : Nat} {pieces : List (ViewPiece T)}
    (hstart : start ≤ cursor) (hstop : cursor ≤ stop) (htiles : Tiles 0 pieces (cursor - start))
    (hshows : Shows writes start pieces) :
    (∃ pieces' cursor', viewTurn (installAll writes) start stop (pieces, cursor) = some (.next (pieces', cursor')) ∧
      (start ≤ cursor' ∧ cursor' ≤ stop ∧ Tiles 0 pieces' (cursor' - start) ∧ Shows writes start pieces') ∧
      stop - cursor' < stop - cursor) ∨
    ∃ result, viewTurn (installAll writes) start stop (pieces, cursor) = some (.done result) ∧
      ViewAnswer writes start (stop - start) result := by
  obtain ⟨hdisjoint, hversion⟩ := installAll_spec writes
  unfold viewTurn
  dsimp only
  split
  · next hlt =>
    have hmissing (hnone : ∀ e ∈ installAll writes, ¬ (e.1 ≤ cursor ∧ cursor < e.2.stop)) :
        ViewAnswer writes start (stop - start) none := by
      refine ⟨cursor, hstart, by omega, fun hinstalled => ?_⟩
      obtain ⟨e, he, hheld⟩ := held_iff_installed.mpr hinstalled
      exact hnone e he hheld
    cases hlast : lastUpTo cursor (installAll writes) with
    | none => exact .inr ⟨none, rfl, hmissing fun e he hheld => by
        have := lastUpTo_eq_none hlast e he
        omega⟩
    | some entry =>
      obtain ⟨hmem, hle, hmax⟩ := hdisjoint.ascending.lastUpTo_eq_some hlast
      obtain ⟨key, piece⟩ := entry
      dsimp only at hle ⊢
      split
      · next hpast =>
        -- an earlier piece ends before the last one starts
        refine .inr ⟨none, rfl, hmissing fun e he hheld => ?_⟩
        rcases Nat.lt_or_eq_of_le (hmax e he hheld.1) with hlt' | heq
        · have := hdisjoint.apart e he _ hmem hlt'
          dsimp only at this hlt'
          omega
        · obtain rfl := hdisjoint.ascending.eq_of_key he hmem heq
          dsimp only at hheld
          omega
      · refine .inl ⟨_, _, rfl, ⟨by omega, by omega, htiles.snoc (by omega) _, ?_⟩, by omega⟩
        intro low high piece' hpiece r hlow hhigh
        rcases List.mem_append.mp hpiece with hpiece | hpiece
        · exact hshows low high piece' hpiece r hlow hhigh
        · simp only [List.mem_singleton, Prod.mk.injEq] at hpiece
          obtain ⟨rfl, rfl, rfl⟩ := hpiece
          refine (hversion r _ _).mp ⟨(key, piece), hmem, by dsimp only; omega, by dsimp only; omega, rfl, ?_⟩
          dsimp only
          omega
  · next hdone =>
    obtain rfl : cursor = stop := by omega
    exact .inr ⟨some pieces, rfl, htiles, hshows⟩

theorem view_answer {writes : List (RegisterWrite T)} (hwrites : ∀ w ∈ writes, w.InSpace) {start : Nat}
    (hstart : start < u32Limit) (count : Nat) :
    ∃ result, view (installAll writes) start count = some result ∧ ViewAnswer writes start count result := by
  have houtside (h : u32Limit < start + count) : ViewAnswer writes start count none := by
    refine ⟨start + count - 1, by omega, by omega, fun hinstalled => ?_⟩
    have := installed_lt hwrites hinstalled
    omega
  unfold view
  split
  · next hoverflow =>
    refine ⟨none, rfl, houtside ?_⟩
    unfold checkedUsize at hoverflow
    split at hoverflow
    · cases hoverflow
    · next hlarge =>
      have : u32Limit < usizeLimit := by decide
      omega
  · next stop hstop =>
    obtain ⟨rfl, -⟩ := checkedUsize_eq_some.mp hstop
    split
    · next hlimit => exact ⟨none, rfl, houtside hlimit⟩
    · obtain ⟨result, hrun, hanswer⟩ := loop_spec (viewTurn (installAll writes) start (start + count))
        (fun s => start ≤ s.2 ∧ s.2 ≤ start + count ∧ Tiles 0 s.1 (s.2 - start) ∧ Shows writes start s.1)
        (fun s => start + count - s.2) (ViewAnswer writes start count)
        (fun s ⟨hle, hle', htiles, hshows⟩ => by
          rcases viewTurn_spec writes hle hle' htiles hshows with
            ⟨pieces, cursor, hturn, hinv, hless⟩ | ⟨result, hturn, hanswer⟩
          · exact .inl ⟨(pieces, cursor), hturn, hinv, hless⟩
          · exact .inr ⟨result, hturn, by rwa [Nat.add_sub_cancel_left] at hanswer⟩)
        (count + 1) ([], start) ⟨le_rfl, by omega, by simp [Tiles], by simp [Shows]⟩ (by dsimp only; omega)
      exact ⟨result, hrun, hanswer⟩

theorem ViewAnswer.isSome_iff {writes : List (RegisterWrite T)} {start count : Nat} {result : Option (List (ViewPiece T))}
    (h : ViewAnswer writes start count result) :
    result.isSome ↔ ∀ r, start ≤ r → r < start + count → Installed writes r := by
  cases result with
  | none =>
    obtain ⟨r, hle, hlt, hmissing⟩ := h
    exact iff_of_false (by simp) fun hall => hmissing (hall r hle hlt)
  | some pieces =>
    refine iff_of_true rfl fun r hle hlt => ?_
    obtain ⟨low, high, piece, hmem, hlow, hhigh⟩ := h.1.exists_piece (Nat.zero_le (r - start)) (by omega)
    exact isSome_lastWrite.mp ⟨_, _, h.2 low high piece hmem r (by omega) (by omega)⟩

/-! ## The gaps of a strided view -/

def SelectedPosition (stride lanes x : Nat) : Prop := ∃ k, ∃ l < lanes, x = k * stride * lanes + l

theorem selectedPosition_iff {stride lanes : Nat} (hstride : 0 < stride) (x : Nat) :
    SelectedPosition stride lanes x ↔ x % (stride * lanes) < lanes := by
  have hle : lanes ≤ stride * lanes := Nat.le_mul_of_pos_left lanes hstride
  constructor
  · rintro ⟨k, l, hl, rfl⟩
    rw [Nat.mul_assoc, Nat.mul_comm k, Nat.mul_add_mod, Nat.mod_eq_of_lt (hl.trans_le hle)]
    exact hl
  · intro hlt
    refine ⟨x / (stride * lanes), x % (stride * lanes), hlt, ?_⟩
    rw [Nat.mul_assoc, Nat.mul_comm]
    exact (Nat.div_add_mod x (stride * lanes)).symm

theorem selectedGapChecked_spec (start : Nat) {stop stride lanes width : Nat} (hstop : stop ≤ width)
    (hwidth : width ≤ u32Limit) (hlanes : lanes ≤ width) (hpos : start < stop → 0 < lanes)
    (hstep : stride * lanes < usizeLimit) (hsmall : width ≤ lanes ∨ stride * lanes ≤ u32Limit) :
    ∃ found, selectedGapChecked start stop stride lanes = some found ∧
      (found = true ↔ ∃ x, start ≤ x ∧ x < stop ∧ SelectedPosition stride lanes x) := by
  have hroom : u32Limit + u32Limit < usizeLimit := by decide
  unfold selectedGapChecked
  split
  · next hempty => exact ⟨false, rfl, by simp; omega⟩
  split
  · next hzero =>
    refine ⟨_, rfl, ?_⟩
    subst hzero
    rw [decide_eq_true_eq]
    constructor
    · exact fun hlt => ⟨start, le_rfl, by omega, 0, start, hlt, by simp⟩
    · rintro ⟨x, hle, -, k, l, hl, rfl⟩
      simp only [Nat.mul_zero, Nat.zero_mul, Nat.zero_add] at hle
      omega
  next hlt hzero =>
  have hstride : 0 < stride := Nat.pos_of_ne_zero hzero
  have hpos := hpos (by omega)
  have hle : lanes ≤ stride * lanes := Nat.le_mul_of_pos_left lanes hstride
  simp only [selectedPosition_iff hstride]
  generalize stride * lanes = step at hstep hsmall hle ⊢
  obtain ⟨block, hblock⟩ : ∃ block, block = start / step * step := ⟨_, rfl⟩
  have hmod : ∀ y < step, (block + y) % step = y := fun y hy => by
    rw [hblock, Nat.mul_comm, Nat.mul_add_mod, Nat.mod_eq_of_lt hy]
  have hstart : block ≤ start ∧ start < block + step := by
    have hdiv := Nat.div_add_mod start step
    have := Nat.mod_lt start (show 0 < step by omega)
    rw [Nat.mul_comm] at hdiv
    omega
  simp only [← hblock, checkedUsize_eq_some.mpr ⟨rfl, hstep⟩, Option.bind_eq_bind, Option.bind_some,
    if_neg (show step ≠ 0 by omega), checkedUsize_eq_some.mpr ⟨rfl, show block + lanes < usizeLimit by omega⟩]
  split
  · next hedge =>
    refine ⟨_, rfl, iff_of_true (by simp; omega) ⟨start, le_rfl, by omega, ?_⟩⟩
    have := hmod (start - block) (by omega)
    rw [Nat.add_sub_cancel' hstart.1] at this
    omega
  · next hedge =>
    simp only [checkedUsize_eq_some.mpr ⟨rfl, show block + step < usizeLimit by omega⟩, Option.bind_some]
    refine ⟨_, rfl, ?_⟩
    rw [decide_eq_true_eq]
    constructor
    · intro hnext
      refine ⟨block + step, hstart.2.le, hnext, ?_⟩
      rw [Nat.add_mod_right, hblock, Nat.mul_mod_left]
      exact hpos
    · rintro ⟨x, hx, hxstop, hxmod⟩
      -- a position of the block of `start` past its lanes is not selected
      by_contra hnext
      have := hmod (x - block) (by omega)
      rw [Nat.add_sub_cancel' (by omega)] at this
      omega

/-- Beyond the range of `usize` the gap test has no answer for a gap that is not empty. -/
theorem selectedGapChecked_overflow {start stop stride lanes : Nat} (hlt : start < stop)
    (hstep : usizeLimit ≤ stride * lanes) : selectedGapChecked start stop stride lanes = none := by
  have hstride : stride ≠ 0 := by
    rintro rfl
    rw [Nat.zero_mul] at hstep
    exact absurd hstep (by decide)
  have hnone : checkedUsize (stride * lanes) = none := by
    unfold checkedUsize
    exact if_neg (by omega)
  rw [selectedGapChecked, if_neg (by omega), if_neg hstride, hnone]
  rfl

/-! ## The pieces of a strided view -/

/-- A position from `cursor` on that the stride selects and no piece holds. -/
def Missed (start stop : Nat) (P : Nat → Prop) (entries : List (Nat × RegisterVersionPiece T)) (cursor : Nat) : Prop :=
  ∃ x, cursor ≤ x ∧ x < stop - start ∧ P x ∧ ∀ e ∈ entries, ¬ (e.1 ≤ start + x ∧ start + x < e.2.stop)

/-- A view refuses, with the answer `refused` of its gap tests, exactly the ranges that miss a selected position. -/
theorem stridedPieces_spec {start stop stride lanes : Nat} {P : Nat → Prop} {refused : Option Bool}
    (hrefused : refused = some true ∨ refused = none)
    (hgap : ∀ low high, high ≤ stop - start →
      ((∃ x, low ≤ x ∧ x < high ∧ P x) → selectedGapChecked low high stride lanes = refused) ∧
      ((¬ ∃ x, low ≤ x ∧ x < high ∧ P x) → selectedGapChecked low high stride lanes = some false))
    (hle : start ≤ stop) {entries : List (Nat × RegisterVersionPiece T)}
    (hapart : entries.Pairwise fun e f => e.2.stop ≤ f.1)
    (hmeets : ∀ e ∈ entries, e.1 < stop ∧ start < e.2.stop ∧ e.1 < e.2.stop) {cursor : Nat} {pieces : List (ViewPiece T)}
    (hcursor : ∀ e ∈ entries, cursor ≤ e.1 - start) :
    (Missed start stop P entries cursor →
      stridedPieces start stop stride lanes entries pieces cursor = refused.map fun _ => none) ∧
    (¬ Missed start stop P entries cursor →
      ∃ pieces', stridedPieces start stop stride lanes entries pieces cursor = some (some pieces')) := by
  induction entries generalizing cursor pieces with
  | nil =>
    obtain ⟨hfound, hnone⟩ := hgap cursor (stop - start) le_rfl
    refine ⟨fun ⟨x, hx, hlt, hP, _⟩ => ?_, fun hmissed => ⟨pieces, ?_⟩⟩
    · rw [stridedPieces, hfound ⟨x, hx, hlt, hP⟩]
      rcases hrefused with rfl | rfl <;> rfl
    · rw [stridedPieces, hnone fun ⟨x, hx, hlt, hP⟩ => hmissed ⟨x, hx, hlt, hP, by simp⟩]
      rfl
  | cons e rest ih =>
    obtain ⟨hnext, hrest⟩ := List.pairwise_cons.mp hapart
    obtain ⟨hstop, hstart, hsize⟩ := hmeets e (by simp)
    have hlow := hcursor e (by simp)
    obtain ⟨hfound, hnone⟩ := hgap cursor (max e.1 start - start) (by omega)
    by_cases hfirst : ∃ x, cursor ≤ x ∧ x < max e.1 start - start ∧ P x
    · -- the gap before the first piece
      have hmissed : Missed start stop P (e :: rest) cursor := by
        obtain ⟨x, hx, hlt, hP⟩ := hfirst
        refine ⟨x, hx, by omega, hP, fun f hf => ?_⟩
        rcases List.mem_cons.mp hf with rfl | hf
        · omega
        · have := hnext f hf
          omega
      refine ⟨fun _ => ?_, fun hnot => absurd hmissed hnot⟩
      rw [stridedPieces, hfound hfirst]
      rcases hrefused with rfl | rfl <;> rfl
    · have hiff : Missed start stop P (e :: rest) cursor ↔
          Missed start stop P rest (min e.2.stop stop - start) := by
        constructor
        · rintro ⟨x, hx, hlt, hP, hheld⟩
          have hge : ¬ x < max e.1 start - start := fun hbefore => hfirst ⟨x, hx, hbefore, hP⟩
          have := hheld e (by simp)
          exact ⟨x, by omega, hlt, hP, fun f hf => hheld f (by simp [hf])⟩
        · rintro ⟨x, hx, hlt, hP, hheld⟩
          refine ⟨x, by omega, hlt, hP, fun f hf => ?_⟩
          rcases List.mem_cons.mp hf with rfl | hf
          · omega
          · exact hheld f hf
      rw [hiff, stridedPieces, hnone hfirst]
      refine ih hrest (fun f hf => hmeets f (by simp [hf])) fun f hf => ?_
      have := hnext f hf
      omega

/-! ## Strided views of the writes -/

theorem Disjoint.meeting_apart {inventory : RegisterVersionInventory T} (h : Disjoint inventory) (start stop : Nat) :
    (meeting inventory start stop).Pairwise (fun e f => e.2.stop ≤ f.1) := by
  have hascending : Ascending (meeting inventory start stop) :=
    (h.ascending.filter _).sublist (List.filter_sublist.trans (List.takeWhile_sublist _))
  refine List.Pairwise.imp_of_mem (fun {e f} he hf hlt => ?_) hascending
  exact h.apart e ((h.mem_meeting start stop e).mp he).1 f ((h.mem_meeting start stop f).mp hf).1 hlt

/-- The strided view has an answer: it refuses exactly the ranges with a selected register that is not installed. -/
def StridedExact (writes : List (RegisterWrite T)) (start count stride lanes : Nat) : Prop :=
  ∃ result, stridedViewChecked (installAll writes) start count stride lanes = some result ∧
    (result = none ↔ ∃ r, Selected start count stride lanes r ∧ ¬ Installed writes r)

/-- The products of a strided view stay in range, or nothing depends on them. -/
structure StridedFits (writes : List (RegisterWrite T)) (start count stride lanes : Nat) : Prop where
  width : lanes = 0 → count = 0 ∨ (count - 1) * stride + 1 < usizeLimit
  step : count = 1 → usizeLimit ≤ stride * lanes → start + lanes ≤ u32Limit →
    ∀ r, Selected start count stride lanes r → Installed writes r

theorem selected_lt_width (stride : Nat) {count lanes k l : Nat} (hk : k < count) (hl : l < lanes) :
    k * stride * lanes + l < ((count - 1) * stride + 1) * lanes := by
  have hle : (k * stride + 1) * lanes ≤ ((count - 1) * stride + 1) * lanes :=
    Nat.mul_le_mul_right lanes (Nat.add_le_add_right (Nat.mul_le_mul_right stride (by omega)) 1)
  rw [Nat.add_mul, Nat.one_mul] at hle
  omega

theorem exists_lt_count {count stride lanes x : Nat} (hcount : count ≠ 0) (hselected : SelectedPosition stride lanes x)
    (hx : x < ((count - 1) * stride + 1) * lanes) : ∃ k < count, ∃ l < lanes, x = k * stride * lanes + l := by
  obtain ⟨k, l, hl, rfl⟩ := hselected
  rcases Nat.eq_zero_or_pos stride with rfl | hstride
  · exact ⟨0, by omega, l, hl, by simp⟩
  · refine ⟨k, ?_, l, hl, rfl⟩
    have hlt : k * stride < (count - 1) * stride + 1 := lt_of_mul_lt_mul_right (by omega) (Nat.zero_le lanes)
    have := Nat.le_of_mul_le_mul_right (Nat.lt_succ_iff.mp hlt) hstride
    omega

theorem missed_iff {writes : List (RegisterWrite T)} {start count stride lanes : Nat} (hcount : count ≠ 0) :
    Missed start (start + ((count - 1) * stride + 1) * lanes) (SelectedPosition stride lanes)
        (meeting (installAll writes) start (start + ((count - 1) * stride + 1) * lanes)) 0 ↔
      ∃ r, Selected start count stride lanes r ∧ ¬ Installed writes r := by
  have hmeeting := (installAll_spec writes).1.mem_meeting start (start + ((count - 1) * stride + 1) * lanes)
  constructor
  · rintro ⟨x, -, hx, hselected, hmissed⟩
    rw [Nat.add_sub_cancel_left] at hx
    obtain ⟨k, hk, l, hl, rfl⟩ := exists_lt_count hcount hselected hx
    refine ⟨_, ⟨k, hk, l, hl, rfl⟩, fun hinstalled => ?_⟩
    obtain ⟨e, he, hheld⟩ := held_iff_installed.mpr hinstalled
    exact hmissed e ((hmeeting e).mpr ⟨he, by omega, by omega⟩) hheld
  · rintro ⟨_, ⟨k, hk, l, hl, rfl⟩, hmissing⟩
    have hlt := selected_lt_width stride hk hl
    refine ⟨_, Nat.zero_le _, by rw [Nat.add_sub_cancel_left]; exact hlt, ⟨k, l, hl, rfl⟩, fun e he hheld => ?_⟩
    exact hmissing (held_iff_installed.mp ⟨e, ((hmeeting e).mp he).1, hheld⟩)

theorem stop_of_fits {start count stride lanes : Nat} (hwidth : (count - 1) * stride + 1 < usizeLimit)
    (hstop : start + ((count - 1) * stride + 1) * lanes ≤ u32Limit) :
    stridedStop start count stride lanes = some (start + ((count - 1) * stride + 1) * lanes) := by
  have hroom : u32Limit < usizeLimit := by decide
  simp only [stridedStop, checkedUsize_eq_some.mpr ⟨rfl, (Nat.lt_succ_self _).trans hwidth⟩,
    checkedUsize_eq_some.mpr ⟨rfl, hwidth⟩, Option.bind_eq_bind, Option.bind_some,
    checkedUsize_eq_some.mpr ⟨rfl, show ((count - 1) * stride + 1) * lanes < usizeLimit by omega⟩]
  exact checkedUsize_eq_some.mpr ⟨rfl, by omega⟩

theorem stop_value {start count stride lanes stop : Nat}
    (h : stridedStop start count stride lanes = some stop) :
    (count - 1) * stride + 1 < usizeLimit ∧ stop = start + ((count - 1) * stride + 1) * lanes := by
  obtain ⟨last, hlast, h⟩ := Option.bind_eq_some_iff.mp h
  obtain ⟨elements, helements, h⟩ := Option.bind_eq_some_iff.mp h
  obtain ⟨width, hwidth, h⟩ := Option.bind_eq_some_iff.mp h
  obtain ⟨rfl, -⟩ := checkedUsize_eq_some.mp hlast
  obtain ⟨rfl, hlt⟩ := checkedUsize_eq_some.mp helements
  obtain ⟨rfl, -⟩ := checkedUsize_eq_some.mp hwidth
  exact ⟨hlt, (checkedUsize_eq_some.mp h).1.symm⟩

theorem strided_outside {writes : List (RegisterWrite T)} (hwrites : ∀ w ∈ writes, w.InSpace)
    {start count stride lanes : Nat} (hcount : count ≠ 0) (hlanes : 0 < lanes)
    (hout : u32Limit < start + ((count - 1) * stride + 1) * lanes) : StridedExact writes start count stride lanes := by
  refine ⟨none, ?_, iff_of_true rfl ⟨_, ⟨count - 1, by omega, lanes - 1, by omega, rfl⟩, fun hinstalled => ?_⟩⟩
  · rw [stridedViewChecked, if_neg hcount]
    split
    · rfl
    · next stop hstop =>
      obtain ⟨-, rfl⟩ := stop_value hstop
      exact if_pos hout
  · have := installed_lt hwrites hinstalled
    rw [Nat.add_mul, Nat.one_mul] at hout
    omega

theorem strided_inside (writes : List (RegisterWrite T)) (start stride lanes : Nat) {count : Nat} {refused : Option Bool}
    (hcount : count ≠ 0) (hwidth : (count - 1) * stride + 1 < usizeLimit)
    (hstop : start + ((count - 1) * stride + 1) * lanes ≤ u32Limit) (hrefused : refused = some true ∨ refused = none)
    (hgap : ∀ low high, high ≤ ((count - 1) * stride + 1) * lanes →
      ((∃ x, low ≤ x ∧ x < high ∧ SelectedPosition stride lanes x) →
        selectedGapChecked low high stride lanes = refused) ∧
      ((¬ ∃ x, low ≤ x ∧ x < high ∧ SelectedPosition stride lanes x) →
        selectedGapChecked low high stride lanes = some false)) :
    ((∃ r, Selected start count stride lanes r ∧ ¬ Installed writes r) →
      stridedViewChecked (installAll writes) start count stride lanes = refused.map fun _ => none) ∧
    ((¬ ∃ r, Selected start count stride lanes r ∧ ¬ Installed writes r) →
      ∃ pieces, stridedViewChecked (installAll writes) start count stride lanes = some (some pieces)) := by
  obtain ⟨hdisjoint, -⟩ := installAll_spec writes
  rw [stridedViewChecked, if_neg hcount, stop_of_fits hwidth hstop, ← missed_iff hcount]
  simp only [if_neg (show ¬ u32Limit < start + ((count - 1) * stride + 1) * lanes by omega)]
  refine stridedPieces_spec hrefused (fun low high hhigh => hgap low high (by omega)) (by omega)
    (hdisjoint.meeting_apart _ _) (fun e he => ?_) (fun e _ => Nat.zero_le _)
  obtain ⟨hmem, hmeets, hstart⟩ := (hdisjoint.mem_meeting _ _ e).mp he
  exact ⟨hmeets, hstart, hdisjoint.nonempty e hmem⟩

/-- Where the step overflows, a view of one block has no answer to give for a register that is missing. -/
theorem strided_overflow {writes : List (RegisterWrite T)} {start stride lanes : Nat}
    (hstep : usizeLimit ≤ stride * lanes) (hstop : start + lanes ≤ u32Limit) :
    StridedExact writes start 1 stride lanes ↔ ∀ r, Selected start 1 stride lanes r → Installed writes r := by
  obtain ⟨hmissing, hall⟩ := strided_inside writes start stride lanes one_ne_zero (by simp; decide)
    (by simpa using hstop) (.inr rfl) fun low high hhigh => ⟨fun ⟨x, hx, hlt, _⟩ => selectedGapChecked_overflow (by omega) hstep, fun hnone => by
      -- every position of the block is selected
      refine if_pos (not_lt.mp fun hlt => hnone ⟨low, le_rfl, hlt, 0, low, ?_, by simp⟩)
      simp only [Nat.sub_self, Nat.zero_mul, Nat.zero_add, Nat.one_mul] at hhigh
      omega⟩
  by_cases hmissed : ∃ r, Selected start 1 stride lanes r ∧ ¬ Installed writes r
  · refine iff_of_false ?_ fun h => ?_
    · rintro ⟨result, hresult, -⟩
      rw [hmissing hmissed] at hresult
      cases hresult
    · obtain ⟨r, hr, hnot⟩ := hmissed
      exact hnot (h r hr)
  · obtain ⟨pieces, hpieces⟩ := hall hmissed
    refine iff_of_true ⟨some pieces, hpieces, iff_of_false (by simp) hmissed⟩ fun r hr => ?_
    by_contra hnot
    exact hmissed ⟨r, hr, hnot⟩

theorem strided_fits {writes : List (RegisterWrite T)} {start count stride lanes : Nat} (hcount : count ≠ 0)
    (hlanes : 0 < lanes) (hstop : start + ((count - 1) * stride + 1) * lanes ≤ u32Limit)
    (hstep : stride * lanes < usizeLimit) : StridedExact writes start count stride lanes := by
  have hroom : u32Limit < usizeLimit := by decide
  have hle : (count - 1) * stride + 1 ≤ ((count - 1) * stride + 1) * lanes := Nat.le_mul_of_pos_right _ hlanes
  have hlanesle : lanes ≤ ((count - 1) * stride + 1) * lanes := Nat.le_mul_of_pos_left _ (Nat.succ_pos _)
  have hsmall : ((count - 1) * stride + 1) * lanes ≤ lanes ∨ stride * lanes ≤ u32Limit := by
    rcases Nat.lt_or_ge count 2 with hone | htwo
    · obtain rfl : count = 1 := by omega
      exact .inl (by simp)
    · refine .inr ?_
      have hstride : stride * lanes ≤ ((count - 1) * stride + 1) * lanes :=
        Nat.mul_le_mul_right lanes ((Nat.le_mul_of_pos_left stride (show 0 < count - 1 by omega)).trans (Nat.le_succ _))
      omega
  obtain ⟨hmissing, hall⟩ := strided_inside writes start stride lanes hcount (by omega) hstop (.inl rfl)
    fun low high hhigh => by
      obtain ⟨found, hfound, hiff⟩ := selectedGapChecked_spec low hhigh (by omega) hlanesle (fun _ => hlanes)
        hstep hsmall
      constructor
      · exact fun h => hfound.trans (congrArg some (hiff.mpr h))
      · exact fun h => hfound.trans (congrArg some (Bool.eq_false_iff.mpr fun htrue => h (hiff.mp htrue)))
  by_cases hmissed : ∃ r, Selected start count stride lanes r ∧ ¬ Installed writes r
  · exact ⟨none, hmissing hmissed, iff_of_true rfl hmissed⟩
  · obtain ⟨pieces, hpieces⟩ := hall hmissed
    exact ⟨some pieces, hpieces, iff_of_false (by simp) hmissed⟩

theorem stridedExact_iff {writes : List (RegisterWrite T)} (hwrites : ∀ w ∈ writes, w.InSpace) {start : Nat}
    (hstart : start < u32Limit) (count stride lanes : Nat) :
    StridedExact writes start count stride lanes ↔ StridedFits writes start count stride lanes := by
  by_cases hcount : count = 0
  · subst hcount
    refine iff_of_true ⟨some [], if_pos rfl, iff_of_false (by simp) ?_⟩ ⟨fun _ => .inl rfl, fun h => by omega⟩
    rintro ⟨r, ⟨k, hk, -⟩, -⟩
    omega
  rcases Nat.eq_zero_or_pos lanes with rfl | hlanes
  · have hnone : ¬ ∃ r, Selected start count stride 0 r ∧ ¬ Installed writes r := by
      rintro ⟨r, ⟨k, -, l, hl, -⟩, -⟩
      omega
    by_cases hwidth : (count - 1) * stride + 1 < usizeLimit
    · obtain ⟨-, hall⟩ := strided_inside writes start stride 0 hcount hwidth
        (by omega) (.inr rfl) fun low high hhigh => ⟨fun ⟨x, hx, hlt, _⟩ => by omega, fun _ => if_pos (by omega)⟩
      obtain ⟨pieces, hpieces⟩ := hall hnone
      refine iff_of_true ⟨some pieces, hpieces, iff_of_false (by simp) hnone⟩ ⟨fun _ => .inr hwidth, fun _ hstep => ?_⟩
      rw [Nat.mul_zero] at hstep
      exact absurd hstep (by decide)
    · refine iff_of_false ?_ fun h => (h.width rfl).elim hcount hwidth
      rintro ⟨result, hresult, hiff⟩
      rw [stridedViewChecked, if_neg hcount] at hresult
      cases hstop : stridedStop start count stride 0 with
      | none =>
        rw [hstop] at hresult
        exact hnone (hiff.mp (Option.some.inj hresult).symm)
      | some stop => exact hwidth (stop_value hstop).1
  · have hpositive : lanes = 0 → count = 0 ∨ (count - 1) * stride + 1 < usizeLimit := fun h => by omega
    by_cases hout : u32Limit < start + ((count - 1) * stride + 1) * lanes
    · refine iff_of_true (strided_outside hwrites hcount hlanes hout) ⟨hpositive, fun hone _ hstop => ?_⟩
      subst hone
      simp only [Nat.sub_self, Nat.zero_mul, Nat.zero_add, Nat.one_mul] at hout
      omega
    by_cases hstep : stride * lanes < usizeLimit
    · exact iff_of_true (strided_fits hcount hlanes (by omega) hstep) ⟨hpositive, fun _ hover => by omega⟩
    · have hone : count = 1 := by
        -- two blocks of that step do not fit
        by_contra hne
        have hle : stride * lanes ≤ ((count - 1) * stride + 1) * lanes :=
          Nat.mul_le_mul_right lanes ((Nat.le_mul_of_pos_left stride (show 0 < count - 1 by omega)).trans (Nat.le_succ _))
        have : u32Limit < usizeLimit := by decide
        omega
      subst hone
      have hstop : start + lanes ≤ u32Limit := by simpa using hout
      rw [strided_overflow (by omega) hstop]
      exact ⟨fun h => ⟨hpositive, fun _ _ _ => h⟩, fun h => h.step rfl (by omega) hstop⟩

/-- A view of a range: it answers, shows the range exactly when every register of it was installed, and its pieces
tile the range with the last writes. -/
def ViewExact (writes : List (RegisterWrite T)) (start count : Nat) : Prop :=
  ∃ result, view (installAll writes) start count = some result ∧
    (result.isSome ↔ ∀ r, start ≤ r → r < start + count → Installed writes r) ∧
    ∀ pieces, result = some pieces → Tiles 0 pieces count ∧ Shows writes start pieces

/-- The pieces stay disjoint and the views exact after every sequence of writes; a strided view is exact as long as its
products fit or nothing depends on them. -/
theorem inventory_exact_iff {writes : List (RegisterWrite T)} (hwrites : ∀ w ∈ writes, w.InSpace) {start : Nat}
    (hstart : start < u32Limit) (count stride lanes : Nat) :
    (Disjoint (installAll writes) ∧ (∀ first < u32Limit, ∀ size, ViewExact writes first size) ∧
      StridedExact writes start count stride lanes) ↔ StridedFits writes start count stride lanes := by
  refine ⟨fun h => (stridedExact_iff hwrites hstart count stride lanes).mp h.2.2, fun h => ?_⟩
  refine ⟨(installAll_spec writes).1, fun first hfirst size => ?_,
    (stridedExact_iff hwrites hstart count stride lanes).mpr h⟩
  obtain ⟨result, hresult, hanswer⟩ := view_answer hwrites hfirst size
  exact ⟨result, hresult, hanswer.isSome_iff, fun pieces heq => by rwa [heq] at hanswer⟩

/-- The second write cuts the first one in three; every other register of it is selected. -/
theorem inventory_exact_split :
    (Disjoint (installAll [⟨0, 10, 'a'⟩, ⟨3, 2, 'b'⟩]) ∧
      (∀ first < u32Limit, ∀ size, ViewExact [⟨0, 10, 'a'⟩, ⟨3, 2, 'b'⟩] first size) ∧
      StridedExact [⟨0, 10, 'a'⟩, ⟨3, 2, 'b'⟩] 0 5 2 1) ↔ StridedFits [⟨0, 10, 'a'⟩, ⟨3, 2, 'b'⟩] 0 5 2 1 :=
  inventory_exact_iff (by unfold RegisterWrite.InSpace; decide) (by decide) 5 2 1

/-- A step of 2^64 over two lanes divides by zero where the view should refuse. -/
theorem strided_view_overflow : ¬ ∀ (writes : List (RegisterWrite Char)), (∀ w ∈ writes, w.InSpace) →
    ∀ start < u32Limit, ∀ count < usizeLimit, ∀ stride < usizeLimit, ∀ lanes < usizeLimit,
      StridedExact writes start count stride lanes := by
  intro h
  obtain ⟨result, hresult, -⟩ := h [] (by simp) 0 (by decide) 1 (by decide) (2 ^ 63) (by decide) 2 (by decide)
  have hpanic : stridedViewChecked (installAll ([] : List (RegisterWrite Char))) 0 1 (2 ^ 63) 2 = none := by decide
  rw [hpanic] at hresult
  cases hresult

end RegisterVersionInventory

end Rumoca.Solve
