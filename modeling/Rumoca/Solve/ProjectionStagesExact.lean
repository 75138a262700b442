import Rumoca.Solve.ProjectionStagesWalk
/-!
# Lookups of a constructed owner

What every constructor leaves: the counts are the stages' own, and both tables
are built from them. The scalar blocks then answer position by position, and the
targets answer as the walk exactly when the walk finds nothing at `usize::MAX`.
-/

namespace Rumoca.Solve

open Rumoca.Lib

variable {Tearing Chart : Type}

/-! ## Stages that fit -/

/-- Every row and Y index is a `usize`. -/
def AlgebraicProjectionBlock.IsUsize (block : AlgebraicProjectionBlock Tearing Chart) : Prop :=
  (∀ row ∈ block.rows, row < usizeLimit) ∧ ∀ y ∈ block.yIndices, y < usizeLimit

/-- A coupled block of `usize` values, or a run with Y storage whose ends fit. -/
def ProjectionStage.Fits : ProjectionStage Tearing Chart → Prop
  | .explicit block => block.IsUsize
  | .singletonDeclarationRun firstRow storage => ∃ index byteOffset, storage.base = .y index byteOffset ∧
      index + storage.scalarCount < usizeLimit ∧ firstRow + storage.scalarCount < usizeLimit

/-- The numbers of a stage's type are `usize` values. -/
def ProjectionStage.IsUsize : ProjectionStage Tearing Chart → Prop
  | .explicit block => block.IsUsize
  | .singletonDeclarationRun firstRow storage => firstRow < usizeLimit ∧ storage.scalarCount < usizeLimit

def blockTotal (stages : List (ProjectionStage Tearing Chart)) : Nat := (stages.map stageBlockCount).sum

def segmentsOf (stage : ProjectionStage Tearing Chart) : List RowSegment := (stageSegments stage).getD []

theorem stageSegments_fits {stage : ProjectionStage Tearing Chart} (h : stage.Fits) :
    stageSegments stage = some (segmentsOf stage) := by
  cases stage with
  | explicit block => rfl
  | singletonDeclarationRun firstRow storage =>
    obtain ⟨index, byteOffset, hbase, -, -⟩ := h
    simp only [segmentsOf, stageSegments, hbase, Option.getD_some]

/-! ## The tables built -/

def firstBlocks : List (ProjectionStage Tearing Chart) → (ordinal stageIndex : Nat) → List (Nat × Nat)
  | [], _, _ => []
  | stage :: rest, ordinal, stageIndex =>
    (if 0 < stageBlockCount stage then [(ordinal, stageIndex)] else []) ++
      firstBlocks rest (ordinal + stageBlockCount stage) (stageIndex + 1)

theorem buildStage_foldlM {stages : List (ProjectionStage Tearing Chart)} (hfits : ∀ stage ∈ stages, stage.Fits)
    (building : StageIndex.Building) (stageIndex : Nat)
    (htotal : building.ordinal + blockTotal stages < usizeLimit) :
    (stages.zipIdx stageIndex).foldlM StageIndex.buildStage building = some
      ⟨(stages.flatMap segmentsOf).foldl claim building.claimed,
        building.blocks ++ firstBlocks stages building.ordinal stageIndex, building.ordinal + blockTotal stages⟩ := by
  induction stages generalizing building stageIndex with
  | nil => simp [firstBlocks, blockTotal]
  | cons stage rest ih =>
    have hsum : blockTotal (stage :: rest) = stageBlockCount stage + blockTotal rest := rfl
    have hordinal : saturatingAddUsize building.ordinal (stageBlockCount stage) =
        building.ordinal + stageBlockCount stage := by
      unfold saturatingAddUsize
      omega
    have hstage : StageIndex.buildStage building (stage, stageIndex) = some
        ⟨(segmentsOf stage).foldl claim building.claimed,
          if 0 < stageBlockCount stage then building.blocks ++ [(building.ordinal, stageIndex)] else building.blocks,
          building.ordinal + stageBlockCount stage⟩ := by
      simp only [StageIndex.buildStage, stageSegments_fits (hfits stage (by simp)), Option.bind_eq_bind,
        Option.bind_some, hordinal]
      rfl
    rw [List.zipIdx_cons, List.foldlM_cons, hstage, Option.bind_eq_bind, Option.bind_some,
      ih (fun s hs => hfits s (by simp [hs])) _ _ (by dsimp only; omega)]
    dsimp only
    rw [List.flatMap_cons, List.foldl_append, hsum, firstBlocks, Nat.add_assoc]
    split_ifs <;> simp

theorem build_eq {stages : List (ProjectionStage Tearing Chart)} (hfits : ∀ stage ∈ stages, stage.Fits)
    (htotal : blockTotal stages < usizeLimit) :
    StageIndex.build stages =
      some ⟨((stages.flatMap segmentsOf).foldl claim []).map Prod.snd, firstBlocks stages 0 0⟩ := by
  have hfold := buildStage_foldlM hfits ⟨[], [], 0⟩ 0 (by simpa using htotal)
  simp only [StageIndex.build, hfold, Option.bind_eq_bind, Option.bind_some, List.nil_append]
  rfl

/-! ## Targets -/

theorem targetAt_eq (segments : List RowSegment) (blocks : List (Nat × Nat)) (row : Nat) :
    (StageIndex.mk ((segments.foldl claim []).map Prod.snd) blocks).targetAt row =
      ((segments.find? (·.Takes row)).bind (·.target row)).map scalarSlotY := by
  obtain ⟨hclaimed, howns⟩ := claimed_foldl segments
  have hascend : ((segments.foldl claim []).map Prod.snd).Pairwise
      fun a b => decide (b.start ≤ row) → decide (a.start ≤ row) := by
    refine List.pairwise_map.2 (hclaimed.ascending.imp_of_mem fun {a b} ha hb hab hrow => ?_)
    have hstart := hclaimed.start a ha
    have hstart' := hclaimed.start b hb
    simp only [decide_eq_true_eq] at hrow ⊢
    omega
  have htakes : ∀ e ∈ segments.foldl claim [], (e.2.Takes row ↔ e.2.start ≤ row ∧ row - e.2.start < e.2.len) := by
    intro e he
    have hstop := hclaimed.stop_eq he
    have hstart := hclaimed.start e he
    unfold RowSegment.Takes
    omega
  have hfind : ∀ e ∈ segments.foldl claim [], e.2.Takes row →
      (segments.find? (·.Takes row)).bind (·.target row) = e.2.target row := by
    intro e he hrow
    have hfirst := (howns row (e.2.target row)).1 ⟨e, he, hrow, rfl⟩
    obtain ⟨first, hsome, heq⟩ := Option.map_eq_some_iff.1 hfirst
    rw [hsome, Option.bind_some, heq]
  have hnone : (∀ e ∈ segments.foldl claim [], ¬e.2.Takes row) →
      (segments.find? (·.Takes row)).bind (·.target row) = none := by
    intro hfree
    cases hfirst : segments.find? (·.Takes row) with
    | none => rfl
    | some first =>
      obtain ⟨e, he, hrow, -⟩ := (howns row (first.target row)).2 (by rw [hfirst]; rfl)
      exact absurd hrow (hfree e he)
  unfold StageIndex.targetAt
  rcases beforePartition_spec hascend with ⟨hbefore, hlater⟩ | ⟨before, segment, after, hsplit, hbefore, hrow, hafter⟩
  · simp only [hbefore, Option.bind_eq_bind, Option.bind_none]
    rw [hnone fun e he htake => ?_, Option.map_none]
    have hstart := hlater e.2 (List.mem_map.2 ⟨e, he, rfl⟩)
    exact absurd htake.1 (of_decide_eq_false hstart)
  · have hmem : segment ∈ (segments.foldl claim []).map Prod.snd := by simp [hsplit]
    obtain ⟨e, he, rfl⟩ := List.mem_map.1 hmem
    have hstart : e.2.start ≤ row := of_decide_eq_true hrow
    simp only [hbefore, Option.bind_eq_bind, Option.bind_some]
    by_cases hlen : e.2.len ≤ row - e.2.start
    · rw [if_pos hlen, hnone fun f hf htake => ?_, Option.map_none]
      -- an owner before the segment found ends at or before its start
      have hin : f.2 ∈ before ++ e.2 :: after := hsplit ▸ List.mem_map.2 ⟨f, hf, rfl⟩
      rcases List.mem_append.1 hin with hin | hin
      · have hpair : ((segments.foldl claim []).map Prod.snd).Pairwise fun a b => a.stop ≤ b.start :=
          List.pairwise_map.2 hclaimed.pairwise_apart
        rw [hsplit] at hpair
        have hapart := (List.pairwise_append.1 hpair).2.2 f.2 hin e.2 (by simp)
        have hlast := htake.2
        omega
      · rcases List.mem_cons.1 hin with heq | hin
        · have hfe : f.2.Takes row := htake
          rw [heq] at hfe
          exact absurd ((htakes e he).1 hfe).2 (not_lt.2 hlen)
        · exact absurd htake.1 (of_decide_eq_false (hafter f.2 hin))
    · rw [if_neg hlen, hfind e he ((htakes e he).2 ⟨hstart, not_le.1 hlen⟩)]
      unfold RowSegment.target
      cases e.2.yStart with
      | none => rfl
      | some y => rfl

/-- The first claim of a coupled block that takes the row is the claim of the row's first position. -/
theorem find?_explicit {block : AlgebraicProjectionBlock Tearing Chart} (h : block.IsUsize) {row : Nat}
    (hrow : row < usizeLimit - 1) :
    ((segmentsOf (.explicit block)).find? (·.Takes row)).map (fun segment => (segment.target row).map scalarSlotY) =
      stageClaim row (.explicit block) := by
  have hsegments : segmentsOf (.explicit block) =
      block.rows.zipIdx.map fun entry => ⟨entry.1, 1, block.yIndices[entry.2]?⟩ := rfl
  have htakes : ∀ claimed position : Nat, (RowSegment.mk claimed 1 block.yIndices[position]?).Takes row ↔ claimed = row := by
    intro claimed position
    have hstop : (RowSegment.mk claimed 1 block.yIndices[position]?).stop = min (claimed + 1) (usizeLimit - 1) := rfl
    unfold RowSegment.Takes
    dsimp only
    omega
  have htarget : ∀ position : Nat, (RowSegment.mk row 1 block.yIndices[position]?).target row = block.yIndices[position]? := by
    intro position
    cases hy : block.yIndices[position]? with
    | none => rfl
    | some y =>
      have hlt : y < usizeLimit := h.2 y (List.mem_of_getElem? hy)
      simp only [RowSegment.target, Option.bind_some, Nat.sub_self, Nat.add_zero, checkedUsize, hlt, if_true]
  have hfind : (block.rows.zipIdx.find? fun entry => (RowSegment.mk entry.1 1 block.yIndices[entry.2]?).Takes row) =
      block.rows.zipIdx.find? fun entry => entry.1 == row := by
    congr 1
    funext entry
    simp only [htakes]
    rfl
  rw [hsegments, List.find?_map, stageClaim, List.findIdx?_eq_fst_find?_zipIdx]
  simp only [Function.comp_def, hfind, Option.map_map]
  cases hentry : block.rows.zipIdx.find? fun entry => entry.1 == row with
  | none => rfl
  | some entry =>
    have heq : entry.1 = row := by simpa using List.find?_some hentry
    simp only [Option.map_some, ← heq]
    rw [heq, htarget]

theorem find?_segmentsOf {stage : ProjectionStage Tearing Chart} (h : stage.Fits) {row : Nat}
    (hrow : row < usizeLimit - 1) :
    ((segmentsOf stage).find? (·.Takes row)).map (fun segment => (segment.target row).map scalarSlotY) =
      stageClaim row stage := by
  cases stage with
  | explicit block => exact find?_explicit h hrow
  | singletonDeclarationRun firstRow storage =>
    obtain ⟨index, byteOffset, hbase, hindex, hlast⟩ := h
    have hsegments : segmentsOf (.singletonDeclarationRun firstRow storage : ProjectionStage Tearing Chart) =
        [⟨firstRow, storage.scalarCount, some index⟩] := by
      simp only [segmentsOf, stageSegments, hbase, Option.getD_some]
    have htakes : (RowSegment.mk firstRow storage.scalarCount (some index)).Takes row ↔
        firstRow ≤ row ∧ row - firstRow < storage.scalarCount := by
      unfold RowSegment.Takes
      rw [RowSegment.stop_eq _ hlast]
      dsimp only
      omega
    rw [hsegments, stageClaim, List.find?_singleton]
    simp only [hbase, decide_eq_true_eq, htakes]
    split_ifs <;> rfl

theorem find?_walk {stages : List (ProjectionStage Tearing Chart)} (h : ∀ stage ∈ stages, stage.Fits) {row : Nat}
    (hrow : row < usizeLimit - 1) :
    (((stages.flatMap segmentsOf).find? (·.Takes row)).bind (·.target row)).map scalarSlotY = walkedTarget stages row := by
  have hclaims : ((stages.flatMap segmentsOf).find? (·.Takes row)).map (fun segment => (segment.target row).map scalarSlotY) =
      stages.findSome? (stageClaim row) := by
    induction stages with
    | nil => rfl
    | cons stage rest ih =>
      rw [List.flatMap_cons, List.find?_append, List.findSome?_cons, ← find?_segmentsOf (h stage (by simp)) hrow]
      cases (segmentsOf stage).find? (·.Takes row) with
      | none => exact ih fun s hs => h s (by simp [hs])
      | some segment => rfl
  rw [walkedTarget, ← hclaims]
  cases (stages.flatMap segmentsOf).find? (·.Takes row) <;> rfl

theorem find?_last (segments : List RowSegment) : segments.find? (·.Takes (usizeLimit - 1)) = none :=
  List.find?_eq_none.2 fun segment _ => by
    simpa using segment.not_takes_last (le_refl _)

/-! ## Scalar blocks -/

def blocksOf (stage : ProjectionStage Tearing Chart) : List (AlgebraicProjectionBlock Tearing Chart) :=
  (ProjectionBlocks.scalarStage stage).getD []

def blockAt : ProjectionStage Tearing Chart × Nat → Option (AlgebraicProjectionBlock Tearing Chart)
  | (.explicit block, _) => some block
  | (.singletonDeclarationRun firstRow storage, offset) => ProjectionBlocks.singletonBlock firstRow storage offset

theorem scalarStage_fits {stage : ProjectionStage Tearing Chart} (h : stage.Fits) :
    ProjectionBlocks.scalarStage stage = some (blocksOf stage) ∧ (blocksOf stage).length = stageBlockCount stage ∧
      ∀ offset < stageBlockCount stage, blockAt (stage, offset) = (blocksOf stage)[offset]? := by
  cases stage with
  | explicit block =>
    refine ⟨rfl, rfl, fun offset hoffset => ?_⟩
    obtain rfl : offset = 0 := Nat.lt_one_iff.1 hoffset
    rfl
  | singletonDeclarationRun firstRow storage =>
    obtain ⟨index, byteOffset, hbase, hindex, hlast⟩ := h
    have hscalars : ProjectionBlocks.scalarStage (.singletonDeclarationRun firstRow storage) =
        some ((List.range storage.scalarCount).map fun offset =>
          (⟨[firstRow + offset], [index + offset], none, []⟩ : AlgebraicProjectionBlock Tearing Chart)) := by
      simp only [ProjectionBlocks.scalarStage, hbase]
      refine mapM_eq_some_map fun offset hoffset => ?_
      have hlt := List.mem_range.1 hoffset
      rw [checkedUsize_eq_some.2 ⟨rfl, by omega⟩, checkedUsize_eq_some.2 ⟨rfl, by omega⟩]
      rfl
    have hblocks : blocksOf (.singletonDeclarationRun firstRow storage) =
        (List.range storage.scalarCount).map fun offset =>
          (⟨[firstRow + offset], [index + offset], none, []⟩ : AlgebraicProjectionBlock Tearing Chart) := by
      rw [blocksOf, hscalars, Option.getD_some]
    refine ⟨by rw [hscalars, hblocks], by rw [hblocks, List.length_map, List.length_range]; rfl, fun offset hoffset => ?_⟩
    have hlt : offset < storage.scalarCount := hoffset
    rw [hblocks, List.getElem?_map, List.getElem?_range hlt]
    simp only [blockAt, ProjectionBlocks.singletonBlock, hbase]
    rw [checkedUsize_eq_some.2 ⟨rfl, by omega⟩, checkedUsize_eq_some.2 ⟨rfl, by omega⟩]
    rfl

theorem firstBlocks_append (pre post : List (ProjectionStage Tearing Chart)) (ordinal stageIndex : Nat) :
    firstBlocks (pre ++ post) ordinal stageIndex =
      firstBlocks pre ordinal stageIndex ++ firstBlocks post (ordinal + blockTotal pre) (stageIndex + pre.length) := by
  induction pre generalizing ordinal stageIndex with
  | nil => simp [firstBlocks, blockTotal]
  | cons stage pre ih =>
    have hsum : blockTotal (stage :: pre) = stageBlockCount stage + blockTotal pre := rfl
    have hlength : stageIndex + 1 + pre.length = stageIndex + (pre.length + 1) := by omega
    rw [List.cons_append, firstBlocks, ih, firstBlocks, List.append_assoc, hsum, List.length_cons, Nat.add_assoc, hlength]

theorem mem_firstBlocks {stages : List (ProjectionStage Tearing Chart)} {ordinal stageIndex : Nat} {e : Nat × Nat}
    (he : e ∈ firstBlocks stages ordinal stageIndex) : ordinal ≤ e.1 ∧ ∃ stage position,
      e.2 = stageIndex + position ∧ stages[position]? = some stage ∧ 0 < stageBlockCount stage ∧
        e.1 + stageBlockCount stage ≤ ordinal + blockTotal stages := by
  induction stages generalizing ordinal stageIndex with
  | nil => cases he
  | cons stage rest ih =>
    have hsum : blockTotal (stage :: rest) = stageBlockCount stage + blockTotal rest := rfl
    rcases List.mem_append.1 he with he | he
    · split_ifs at he with hcount
      · obtain rfl := List.mem_singleton.1 he
        exact ⟨le_refl _, stage, 0, rfl, rfl, hcount, by omega⟩
      · cases he
    · obtain ⟨hordinal, s, position, heq, hget, hcount, hle⟩ := ih he
      exact ⟨by omega, s, position + 1, by omega, hget, hcount, by omega⟩

theorem exists_stage {stages : List (ProjectionStage Tearing Chart)} {index : Nat} (h : index < blockTotal stages) :
    ∃ pre stage post, stages = pre ++ stage :: post ∧ blockTotal pre ≤ index ∧
      index < blockTotal pre + stageBlockCount stage := by
  induction stages generalizing index with
  | nil => cases h
  | cons stage rest ih =>
    have hsum : blockTotal (stage :: rest) = stageBlockCount stage + blockTotal rest := rfl
    by_cases hlt : index < stageBlockCount stage
    · exact ⟨[], stage, rest, rfl, Nat.zero_le _, by simpa [blockTotal] using hlt⟩
    · have hrest : index - stageBlockCount stage < blockTotal rest := by omega
      obtain ⟨pre, s, post, rfl, hle, hlast⟩ := ih hrest
      have hsum' : blockTotal (stage :: pre) = stageBlockCount stage + blockTotal pre := rfl
      exact ⟨stage :: pre, s, post, rfl, by omega, by omega⟩

theorem beforePartition_split {α : Type} {p : α → Bool} {before : List α} {a : α} {after : List α}
    (hbefore : ∀ b ∈ before, p b) (ha : p a) (hafter : ∀ b ∈ after.head?, p b = false) :
    beforePartition p (before ++ a :: after) = some a := by
  have hpoint : partitionPoint p (before ++ [a] ++ after) = before.length + 1 := by
    have hall : ∀ b ∈ before ++ [a], p b := fun b hb =>
      (List.mem_append.1 hb).elim (hbefore b) fun hb => List.mem_singleton.1 hb ▸ ha
    rw [partitionPoint_append hall, partitionPoint_of_not hafter, List.length_append, List.length_singleton, Nat.add_zero]
  rw [List.append_assoc, List.singleton_append] at hpoint
  rw [beforePartition, hpoint]
  simp

theorem stageOfBlock_eq (rows : List RowSegment) (stages : List (ProjectionStage Tearing Chart)) (index : Nat) :
    (∃ pre stage post, stages = pre ++ stage :: post ∧ blockTotal pre ≤ index ∧
        index - blockTotal pre < stageBlockCount stage ∧
        (StageIndex.mk rows (firstBlocks stages 0 0)).stageOfBlock stages index =
          some (stage, index - blockTotal pre)) ∨
      blockTotal stages ≤ index ∧ (StageIndex.mk rows (firstBlocks stages 0 0)).stageOfBlock stages index = none := by
  unfold StageIndex.stageOfBlock
  rcases Nat.lt_or_ge index (blockTotal stages) with hlt | hge
  · obtain ⟨pre, stage, post, rfl, hle, hlast⟩ := exists_stage hlt
    refine .inl ⟨pre, stage, post, rfl, hle, by omega, ?_⟩
    have hblocks : firstBlocks (pre ++ stage :: post) 0 0 = firstBlocks pre 0 0 ++ (blockTotal pre, pre.length) ::
        firstBlocks post (blockTotal pre + stageBlockCount stage) (pre.length + 1) := by
      rw [firstBlocks_append, firstBlocks, if_pos (by omega), Nat.zero_add, Nat.zero_add, List.singleton_append]
    have hfound : beforePartition (fun e : Nat × Nat => decide (e.1 ≤ index)) (firstBlocks (pre ++ stage :: post) 0 0) =
        some (blockTotal pre, pre.length) := by
      rw [hblocks]
      refine beforePartition_split (fun e he => ?_) (by simpa using hle) fun e he => ?_
      · obtain ⟨-, s, -, -, -, hcount, hbound⟩ := mem_firstBlocks he
        exact decide_eq_true (by omega)
      · have hordinal := (mem_firstBlocks (List.mem_of_mem_head? he)).1
        exact decide_eq_false (by omega)
    have hget : (pre ++ stage :: post)[pre.length]? = some stage := by simp
    simp only [hfound, Option.bind_eq_bind, Option.bind_some, hget]
    rw [if_pos (by omega)]
  · refine .inr ⟨hge, ?_⟩
    rcases List.eq_nil_or_concat (firstBlocks stages 0 0) with hnil | ⟨init, e, hsplit⟩
    · rw [hnil]
      rfl
    · rw [List.concat_eq_append] at hsplit
      have hfirst : ∀ b ∈ firstBlocks stages 0 0, b.1 ≤ index := fun b hb => by
        obtain ⟨-, s, -, -, -, hcount, hbound⟩ := mem_firstBlocks hb
        omega
      have hfound : beforePartition (fun e : Nat × Nat => decide (e.1 ≤ index)) (firstBlocks stages 0 0) = some e := by
        have hall : ∀ b ∈ init ++ [e], decide (b.1 ≤ index) = true := fun b hb =>
          decide_eq_true (hfirst b (hsplit ▸ hb))
        rw [hsplit]
        exact beforePartition_split (fun b hb => hall b (by simp [hb])) (hall e (by simp)) (by simp)
      obtain ⟨-, s, position, hposition, hget, -, hbound⟩ := mem_firstBlocks (e := e) (by rw [hsplit]; simp)
      rw [Nat.zero_add] at hposition
      simp only [hfound, Option.bind_eq_bind, Option.bind_some, hposition, hget]
      rw [if_neg (by omega)]

/-! ## Construction -/

namespace ProjectionBlocks

/-- An owner that some sequence of constructor calls returns. -/
inductive Constructed : ProjectionBlocks Tearing Chart → Prop
  | ofBlocks {blocks : List (AlgebraicProjectionBlock Tearing Chart)} {owner : ProjectionBlocks Tearing Chart}
    (length : blocks.length < usizeLimit) (usize : ∀ block ∈ blocks, block.IsUsize)
    (made : ofBlocks blocks = some owner) : Constructed owner
  | fromStages {stages : List (ProjectionStage Tearing Chart)} {owner : ProjectionBlocks Tearing Chart}
    (usize : ∀ stage ∈ stages, stage.IsUsize) (made : fromStages stages = pure owner) : Constructed owner
  | mapExplicitBlocks {owner next : ProjectionBlocks Tearing Chart}
    {transform : Nat → AlgebraicProjectionBlock Tearing Chart → Fallible (AlgebraicProjectionBlock Tearing Chart)}
    (constructed : Constructed owner) (made : owner.mapExplicitBlocks transform = pure next)
    (usize : ∀ stage ∈ next.stages, stage.IsUsize) : Constructed next

/-- The stages fit, the count is theirs, and the tables are built from them. -/
structure Sound (owner : ProjectionBlocks Tearing Chart) : Prop where
  fits : ∀ stage ∈ owner.stages, stage.Fits
  count : owner.blockCount = blockTotal owner.stages
  bounded : blockTotal owner.stages < usizeLimit
  index : StageIndex.build owner.stages = some owner.index

theorem Sound.ofBlocks {blocks : List (AlgebraicProjectionBlock Tearing Chart)} {owner : ProjectionBlocks Tearing Chart}
    (length : blocks.length < usizeLimit) (usize : ∀ block ∈ blocks, block.IsUsize)
    (made : ProjectionBlocks.ofBlocks blocks = some owner) : Sound owner := by
  obtain ⟨index, hindex, hmade⟩ := Option.bind_eq_some_iff.1 made
  obtain rfl := Option.some.inj hmade
  have htotal : blockTotal (blocks.map ProjectionStage.explicit) = blocks.length := by
    clear length usize made hindex hmade
    induction blocks with
    | nil => rfl
    | cons block rest ih =>
      have hsum : blockTotal ((block :: rest).map ProjectionStage.explicit) =
        1 + blockTotal (rest.map ProjectionStage.explicit) := rfl
      rw [hsum, ih, List.length_cons, Nat.add_comm]
  refine ⟨fun stage hstage => ?_, htotal.symm, by rw [htotal]; exact length, hindex⟩
  obtain ⟨block, hblock, rfl⟩ := List.mem_map.1 hstage
  exact usize block hblock

theorem stageBounds_fits {stage : ProjectionStage Tearing Chart} (usize : stage.IsUsize) {bounds : Nat × Nat}
    (h : stageBounds stage = pure bounds) : stage.Fits ∧ bounds.1 = stageBlockCount stage := by
  cases stage with
  | explicit block =>
    obtain ⟨bound, -, hbounds⟩ := bind_eq_pure h
    obtain rfl := pure_injective hbounds
    exact ⟨usize, rfl⟩
  | singletonDeclarationRun firstRow storage =>
    unfold stageBounds at h
    cases hbase : storage.base with
    | y index byteOffset =>
      simp only [hbase] at h
      obtain ⟨stopY, hstopY, hrest⟩ := bind_eq_pure h
      obtain ⟨stop, hstop, hbounds⟩ := bind_eq_pure hrest
      obtain rfl := pure_injective hbounds
      exact ⟨⟨index, byteOffset, hbase, (checkedUsize_eq_some.1 (orError_eq_pure.1 hstopY)).2,
        (checkedUsize_eq_some.1 (orError_eq_pure.1 hstop)).2⟩, rfl⟩
    | time =>
      simp only [hbase] at h
      exact absurd h throw_ne_pure
    | p index byteOffset =>
      simp only [hbase] at h
      exact absurd h throw_ne_pure
    | constant value =>
      simp only [hbase] at h
      exact absurd h throw_ne_pure

theorem Sound.fromStages {stages : List (ProjectionStage Tearing Chart)} {owner : ProjectionBlocks Tearing Chart}
    (usize : ∀ stage ∈ stages, stage.IsUsize) (made : ProjectionBlocks.fromStages stages = pure owner) : Sound owner := by
  obtain ⟨bounds, hfold, hrest⟩ := bind_eq_pure made
  obtain ⟨index, hindex, hmade⟩ := bind_eq_pure hrest
  obtain rfl := pure_injective hmade
  have hinv := foldlM_inv_pure
    (fun pre (bounds : Nat × Nat) => (∀ stage ∈ pre, stage.Fits) ∧ bounds.1 = blockTotal pre ∧ bounds.1 < usizeLimit)
    (fun pre stage post bounds bounds' hsplit hpre hstep => by
      obtain ⟨hfits, hcount, -⟩ := hpre
      obtain ⟨own, hown, hrest⟩ := bind_eq_pure hstep
      obtain ⟨total, htotal, hbounds⟩ := bind_eq_pure hrest
      obtain rfl := pure_injective hbounds
      obtain ⟨hsum, hlimit⟩ := checkedUsize_eq_some.1 (orError_eq_pure.1 htotal)
      obtain ⟨hstage, hblocks⟩ := stageBounds_fits (usize stage (by simp [hsplit])) hown
      have happend : blockTotal (pre ++ [stage]) = blockTotal pre + stageBlockCount stage := by simp [blockTotal]
      refine ⟨fun s hs => ?_, by rw [happend]; omega, by dsimp only; omega⟩
      rcases List.mem_append.1 hs with hs | hs
      · exact hfits s hs
      · exact List.mem_singleton.1 hs ▸ hstage)
    ⟨by simp, rfl, by decide⟩ hfold
  exact ⟨hinv.1, hinv.2.1, hinv.2.1 ▸ hinv.2.2, orPanic_eq_pure.1 hindex⟩

theorem transformed {transform : Nat → AlgebraicProjectionBlock Tearing Chart → Fallible (AlgebraicProjectionBlock Tearing Chart)}
    {stages next : List (ProjectionStage Tearing Chart)} {position : Nat}
    (h : (stages.zipIdx position).mapM (transformStage transform) = pure next) (hfits : ∀ stage ∈ stages, stage.Fits)
    (usize : ∀ stage ∈ next, stage.IsUsize) : (∀ stage ∈ next, stage.Fits) ∧ blockTotal next = blockTotal stages := by
  induction stages generalizing next position with
  | nil =>
    obtain rfl := pure_injective h
    exact ⟨by simp, rfl⟩
  | cons stage rest ih =>
    rw [List.zipIdx_cons, List.mapM_cons] at h
    obtain ⟨stage', hstage, hrest⟩ := bind_eq_pure h
    obtain ⟨rest', hmap, hnext⟩ := bind_eq_pure hrest
    obtain rfl := pure_injective hnext
    obtain ⟨hrest', hsum⟩ := ih hmap (fun s hs => hfits s (by simp [hs])) fun s hs => usize s (by simp [hs])
    have hkept : stage'.Fits ∧ stageBlockCount stage' = stageBlockCount stage := by
      cases stage with
      | explicit block =>
        obtain ⟨block', -, hstage⟩ := bind_eq_pure hstage
        obtain rfl := pure_injective hstage
        exact ⟨usize (.explicit block') (by simp), rfl⟩
      | singletonDeclarationRun firstRow storage =>
        obtain rfl := pure_injective hstage
        exact ⟨hfits _ (by simp), rfl⟩
    have hcons : ∀ (s : ProjectionStage Tearing Chart) l, blockTotal (s :: l) = stageBlockCount s + blockTotal l :=
      fun _ _ => rfl
    exact ⟨List.forall_mem_cons.2 ⟨hkept.1, hrest'⟩, by rw [hcons, hcons, hsum, hkept.2]⟩

theorem Constructed.sound {owner : ProjectionBlocks Tearing Chart} (h : Constructed owner) : Sound owner := by
  induction h with
  | ofBlocks length usize made => exact .ofBlocks length usize made
  | fromStages usize made => exact .fromStages usize made
  | mapExplicitBlocks constructed made usize ih =>
    obtain ⟨stages, hmap, hrest⟩ := bind_eq_pure made
    obtain ⟨index, hindex, hmade⟩ := bind_eq_pure hrest
    obtain rfl := pure_injective hmade
    obtain ⟨hfits, htotal⟩ := transformed hmap ih.fits usize
    exact ⟨hfits, ih.count.trans htotal.symm, htotal ▸ ih.bounded, orPanic_eq_pure.1 hindex⟩

theorem Sound.index_eq {owner : ProjectionBlocks Tearing Chart} (h : Sound owner) :
    owner.index = ⟨((owner.stages.flatMap segmentsOf).foldl claim []).map Prod.snd, firstBlocks owner.stages 0 0⟩ :=
  Option.some.inj (h.index.symm.trans (build_eq h.fits h.bounded))

theorem Sound.targetAtRow {owner : ProjectionBlocks Tearing Chart} (h : Sound owner) {row : Nat}
    (hrow : row < usizeLimit - 1) : owner.targetAtRow row = walkedTarget owner.stages row := by
  rw [ProjectionBlocks.targetAtRow, h.index_eq, targetAt_eq, find?_walk h.fits hrow]

theorem Sound.targetAtRow_last {owner : ProjectionBlocks Tearing Chart} (h : Sound owner) :
    owner.targetAtRow (usizeLimit - 1) = none := by
  rw [ProjectionBlocks.targetAtRow, h.index_eq, targetAt_eq, find?_last]
  rfl

theorem Sound.scalarBlockAt {owner : ProjectionBlocks Tearing Chart} (h : Sound owner) :
    ∃ blocks, owner.scalarBlocks = some blocks ∧ blocks.length = owner.len ∧
      ∀ index, owner.scalarBlockAt index = blocks[index]? := by
  have hmap : owner.stages.mapM scalarStage = some (owner.stages.map blocksOf) :=
    mapM_eq_some_map fun stage hstage => (scalarStage_fits (h.fits stage hstage)).1
  have hlength : ∀ stages : List (ProjectionStage Tearing Chart), (∀ stage ∈ stages, stage.Fits) →
      (stages.map blocksOf).flatten.length = blockTotal stages := by
    intro stages hfits
    rw [List.length_flatten, List.map_map, blockTotal]
    exact congrArg List.sum (List.map_congr_left fun stage hstage => (scalarStage_fits (hfits stage hstage)).2.1)
  refine ⟨(owner.stages.map blocksOf).flatten, by rw [scalarBlocks, hmap]; rfl, ?_, fun index => ?_⟩
  · rw [hlength _ h.fits, len, h.count]
  have hblock : owner.scalarBlockAt index = (owner.index.stageOfBlock owner.stages index).bind blockAt := by
    unfold ProjectionBlocks.scalarBlockAt
    rw [Option.bind_eq_bind]
    congr 1
  rw [hblock, h.index_eq]
  rcases stageOfBlock_eq ((owner.stages.flatMap segmentsOf).foldl claim [] |>.map Prod.snd) owner.stages index with
    ⟨pre, stage, post, hsplit, hle, hoffset, hfound⟩ | ⟨hge, hfound⟩
  · have hfits : ∀ s ∈ pre ++ stage :: post, s.Fits := hsplit ▸ h.fits
    obtain ⟨-, hcount, hat⟩ := scalarStage_fits (hfits stage (by simp))
    have hpre := hlength pre fun s hs => hfits s (by simp [hs])
    rw [hfound, Option.bind_some, hat _ hoffset, hsplit, List.map_append, List.flatten_append,
      List.getElem?_append_right (by omega), hpre, List.map_cons, List.flatten_cons,
      List.getElem?_append_left (by omega)]
  · rw [hfound, Option.bind_none, List.getElem?_eq_none (by rw [hlength _ h.fits]; exact hge)]

/-- The blocks answer by position, and the targets as the walk exactly when the walk finds none at `usize::MAX`. -/
theorem lookups_exact (owner : ProjectionBlocks Tearing Chart) (h : Constructed owner) :
    ((∀ row < usizeLimit, owner.targetAtRow row = walkedTarget owner.stages row) ∧
        ∃ blocks, owner.scalarBlocks = some blocks ∧ blocks.length = owner.len ∧
          ∀ index, owner.scalarBlockAt index = blocks[index]?) ↔
      walkedTarget owner.stages (usizeLimit - 1) = none := by
  have hsound := h.sound
  constructor
  · rintro ⟨htargets, -⟩
    rw [← htargets _ (by decide), hsound.targetAtRow_last]
  · intro hlast
    refine ⟨fun row hrow => ?_, hsound.scalarBlockAt⟩
    rcases Nat.lt_or_eq_of_le (Nat.le_sub_one_of_lt hrow) with hlt | rfl
    · exact hsound.targetAtRow hlt
    · rw [hsound.targetAtRow_last, hlast]

/-- A run of five rows, and a coupled block that takes one of them again. -/
def cutStages : List (ProjectionStage Unit Unit) :=
  [.singletonDeclarationRun 10 ⟨.y 100 800, 5, .algebraic, .real⟩, .explicit ⟨[12, 20, 20], [50, 51], none, []⟩]

theorem lookups_exact_cut : ∃ owner, fromStages cutStages = pure owner ∧
    owner.targetAtRow 12 = walkedTarget owner.stages 12 ∧ owner.targetAtRow 12 = some (.y 102 816) := by
  refine ⟨_, rfl, ?_, rfl⟩
  have usize : ∀ stage ∈ cutStages, stage.IsUsize := by
    intro stage hstage
    simp only [cutStages, List.mem_cons, List.not_mem_nil, or_false] at hstage
    rcases hstage with rfl | rfl
    · exact ⟨by decide, by decide⟩
    · exact ⟨by decide, by decide⟩
  exact ((lookups_exact _ (.fromStages usize rfl)).2 rfl).1 12 (by decide)

def lastRowBlock : AlgebraicProjectionBlock Unit Unit := ⟨[usizeLimit - 1], [0], none, []⟩

/-- The target of the last row is lost. -/
theorem lastRowBlock_untargeted : ∃ owner, Constructed owner ∧ ofBlocks [lastRowBlock] = some owner ∧
    owner.targetAtRow (usizeLimit - 1) = none ∧ walkedTarget owner.stages (usizeLimit - 1) = some (.y 0 0) := by
  have usize : ∀ block ∈ [lastRowBlock], block.IsUsize := by
    intro block hblock
    obtain rfl := List.mem_singleton.1 hblock
    exact ⟨by decide, by decide⟩
  exact ⟨_, .ofBlocks (by decide) usize rfl, rfl, rfl, rfl⟩

end ProjectionBlocks

end Rumoca.Solve
