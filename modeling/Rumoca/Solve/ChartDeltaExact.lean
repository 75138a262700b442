import Mathlib.Data.List.Forall2
import Rumoca.Solve.ChartDeltaScript
/-!
# Applying a delta gives the target

The steps walked back compress to edits that apply to the target's entries at
the steps' cost; any edits that apply to the target walk the same grid, so the
first round that reaches the ends of both lists gives a script of least cost.
-/

namespace Rumoca.Solve.ChartDelta

open Lib Lib.EditGraph

variable {T : Type}

def editCost (edits : List (Edit T)) : Nat :=
  (edits.map fun edit => match edit with
    | .keep _ => 0
    | .delete count => count
    | .insert values => values.length).sum

theorem editCost_append (edits edits' : List (Edit T)) : editCost (edits ++ edits') = editCost edits + editCost edits' := by
  unfold editCost
  rw [List.map_append, List.sum_append]

/-! ## Runs of edits -/

section
variable {base : List T}

theorem runEdits_append {edits edits' : List (Edit T)} {s s' : List T × Nat}
    (h : edits.foldlM (applyEdit base) s = .ok s') :
    (edits ++ edits').foldlM (applyEdit base) s = edits'.foldlM (applyEdit base) s' := by
  rw [List.foldlM_append, h]
  rfl

theorem runEdits_single (edit : Edit T) (s : List T × Nat) : [edit].foldlM (applyEdit base) s = applyEdit base s edit := by
  rw [List.foldlM_cons]
  cases applyEdit base s edit <;> rfl

theorem runEdits_concat {edits : List (Edit T)} {edit : Edit T} {s : List T × Nat} :
    (edits ++ [edit]).foldlM (applyEdit base) s =
      edits.foldlM (applyEdit base) s >>= fun s' => applyEdit base s' edit := by
  rw [List.foldlM_append]
  exact congrArg (edits.foldlM (applyEdit base) s >>= ·) (funext (runEdits_single edit))

theorem runEdits_concat_ok {edits : List (Edit T)} {edit : Edit T} {s s' : List T × Nat}
    (h : (edits ++ [edit]).foldlM (applyEdit base) s = .ok s') :
    ∃ s₁, edits.foldlM (applyEdit base) s = .ok s₁ ∧ applyEdit base s₁ edit = .ok s' := by
  rw [runEdits_concat] at h
  cases hrun : edits.foldlM (applyEdit base) s with
  | error e => rw [hrun] at h; cases h
  | ok s₁ => exact ⟨s₁, rfl, by rw [hrun] at h; exact h⟩

theorem applyEdits_ok {edits : List (Edit T)} {r : List T} :
    applyEdits base edits = .ok r ↔ edits.foldlM (applyEdit base) ([], 0) = .ok (r, base.length) := by
  unfold applyEdits
  cases edits.foldlM (applyEdit base) ([], 0) with
  | error e => exact ⟨fun h => (by cases h), fun h => (by cases h)⟩
  | ok s =>
    obtain ⟨values, cursor⟩ := s
    show (if cursor ≠ base.length then Except.error ChartDeltaError.indexOutOfRange else Except.ok values) = .ok r ↔ _
    constructor
    · intro h
      split_ifs at h with hcursor
      rw [← Except.ok.inj h, not_ne_iff.1 hcursor]
    · intro h
      cases h
      exact if_neg (not_ne_iff.2 rfl)

theorem applyEdit_initial {edit : Edit T} {s s' : List T × Nat} (h : applyEdit base s edit = .ok s') : s.1 <+: s'.1 := by
  cases edit with
  | keep count =>
    unfold applyEdit at h
    dsimp only at h
    split_ifs at h
    cases h
    exact List.prefix_append _ _
  | delete count =>
    cases h
    exact List.prefix_rfl
  | insert values =>
    cases h
    exact List.prefix_append _ _

theorem runEdits_cons {edit : Edit T} {edits : List (Edit T)} {s s' : List T × Nat}
    (h : (edit :: edits).foldlM (applyEdit base) s = .ok s') :
    ∃ s₁, applyEdit base s edit = .ok s₁ ∧ edits.foldlM (applyEdit base) s₁ = .ok s' := by
  rw [List.foldlM_cons] at h
  cases hedit : applyEdit base s edit with
  | error e => rw [hedit] at h; cases h
  | ok s₁ => exact ⟨s₁, rfl, by rw [hedit] at h; exact h⟩

theorem runEdits_initial {edits : List (Edit T)} {s s' : List T × Nat} (h : edits.foldlM (applyEdit base) s = .ok s') :
    s.1 <+: s'.1 := by
  induction edits generalizing s with
  | nil =>
    cases h
    exact List.prefix_rfl
  | cons edit edits ih =>
    obtain ⟨s₁, hedit, hrest⟩ := runEdits_cons h
    exact (applyEdit_initial hedit).trans (ih hrest)

end

/-! ## Compressing steps -/

def Step.edit (target : List T) : Step → Option (Edit T)
  | .keep => some (.keep 1)
  | .delete => some (.delete 1)
  | .insert index => do pure (.insert [← target[index]?])

section
variable {base : List T}

/-- An edit that does what two edits do one after the other. -/
structure Merges (base : List T) (last edit merged : Edit T) : Prop where
  apply : ∀ s₁ s₂ s₃, applyEdit base s₁ last = .ok s₂ → applyEdit base s₂ edit = .ok s₃ →
    applyEdit base s₁ merged = .ok s₃
  cost : editCost [merged] = editCost [last] + editCost [edit]

theorem Merges.keep (count : Nat) : Merges base (.keep count) (.keep 1) (.keep (count + 1)) where
  apply := by
    intro s₁ s₂ s₃ hlast hedit
    unfold applyEdit at hlast hedit ⊢
    dsimp only at hlast hedit ⊢
    split_ifs at hlast with hfirst
    cases hlast
    split_ifs at hedit with hsecond
    cases hedit
    rw [if_pos (by omega), List.append_assoc, Nat.add_assoc, List.take_add, List.drop_drop]
  cost := rfl

theorem Merges.delete (count : Nat) : Merges base (.delete count) (.delete 1) (.delete (count + 1)) where
  apply := by
    intro s₁ s₂ s₃ hlast hedit
    cases hlast
    cases hedit
    exact congrArg (fun stop => Except.ok (s₁.1, stop)) (Nat.add_assoc _ _ _).symm
  cost := rfl

theorem Merges.insert (values : List T) (value : T) :
    Merges base (.insert values) (.insert [value]) (.insert (values ++ [value])) where
  apply := by
    intro s₁ s₂ s₃ hlast hedit
    cases hlast
    cases hedit
    exact congrArg (fun values => Except.ok (values, s₁.2)) (List.append_assoc _ _ _).symm
  cost := by
    unfold editCost
    simp

theorem Merges.run {edits : List (Edit T)} {last edit merged : Edit T} {s s₂ s₃ : List T × Nat}
    (h : Merges base last edit merged) (hrun : (edits ++ [last]).foldlM (applyEdit base) s = .ok s₂)
    (hafter : applyEdit base s₂ edit = .ok s₃) : (edits ++ [merged]).foldlM (applyEdit base) s = .ok s₃ := by
  obtain ⟨s₁, hbefore, hlast⟩ := runEdits_concat_ok hrun
  rw [runEdits_append hbefore, runEdits_single]
  exact h.apply s₁ s₂ s₃ hlast hafter

theorem count_le_of_run {edits : List (Edit T)} {last : Edit T} {values : List T} {x count : Nat}
    (hrun : (edits ++ [last]).foldlM (applyEdit base) ([], 0) = .ok (values, x))
    (hlast : last = .keep count ∨ last = .delete count) : count ≤ x := by
  obtain ⟨s₁, -, hedit⟩ := runEdits_concat_ok hrun
  rcases hlast with rfl | rfl
  · unfold applyEdit at hedit
    dsimp only at hedit
    split_ifs at hedit
    cases hedit
    exact Nat.le_add_left _ _
  · cases hedit
    exact Nat.le_add_left _ _

end

theorem compressStep_cases {target : List T} {edits : List (Edit T)} {step : Step} {edit : Edit T}
    (hedit : step.edit target = some edit)
    (hcount : ∀ init count, step = .keep ∧ edits = init ++ [.keep count] ∨
      step = .delete ∧ edits = init ++ [.delete count] → count + 1 < u32Limit) :
    compressStep target edits step = some (edits ++ [edit]) ∨
      ∃ init last merged, edits = init ++ [last] ∧ compressStep target edits step = some (init ++ [merged]) ∧
        ∀ base, Merges base last edit merged := by
  have hlastOf : ∀ {last : Edit T}, edits.getLast? = some last → edits = edits.dropLast ++ [last] := fun h =>
    (List.dropLast_append_getLast? _ h).symm
  have hsingle : ∀ {n : Nat}, n < u32Limit → checkedU32 n = some n := fun h => if_pos h
  cases step with
  | keep =>
    cases hedit
    rcases hlast : edits.getLast? with - | ⟨count⟩ | ⟨count⟩ | ⟨values⟩
    · exact .inl (by unfold compressStep; rw [hlast])
    · refine .inr ⟨edits.dropLast, .keep count, .keep (count + 1), hlastOf hlast, ?_, fun base => .keep count⟩
      unfold compressStep
      rw [hlast]
      simp only [hsingle (hcount _ count (.inl ⟨rfl, hlastOf hlast⟩)), Option.bind_eq_bind, Option.bind_some]
      rfl
    · exact .inl (by unfold compressStep; rw [hlast])
    · exact .inl (by unfold compressStep; rw [hlast])
  | delete =>
    cases hedit
    rcases hlast : edits.getLast? with - | ⟨count⟩ | ⟨count⟩ | ⟨values⟩
    · exact .inl (by unfold compressStep; rw [hlast])
    · exact .inl (by unfold compressStep; rw [hlast])
    · refine .inr ⟨edits.dropLast, .delete count, .delete (count + 1), hlastOf hlast, ?_, fun base => .delete count⟩
      unfold compressStep
      rw [hlast]
      simp only [hsingle (hcount _ count (.inr ⟨rfl, hlastOf hlast⟩)), Option.bind_eq_bind, Option.bind_some]
      rfl
    · exact .inl (by unfold compressStep; rw [hlast])
  | insert index =>
    obtain ⟨value, hvalue, rfl⟩ : ∃ value, target[index]? = some value ∧ edit = .insert [value] := by
      cases hvalue : target[index]? with
      | none => simp [Step.edit, hvalue] at hedit
      | some value => exact ⟨value, rfl, by simpa [Step.edit, hvalue] using hedit.symm⟩
    rcases hlast : edits.getLast? with - | ⟨count⟩ | ⟨count⟩ | ⟨values⟩
    · exact .inl (by unfold compressStep; rw [hlast]; simp [hvalue])
    · exact .inl (by unfold compressStep; rw [hlast]; simp [hvalue])
    · exact .inl (by unfold compressStep; rw [hlast]; simp [hvalue])
    · refine .inr ⟨edits.dropLast, .insert values, .insert (values ++ [value]), hlastOf hlast, ?_,
        fun base => .insert values value⟩
      unfold compressStep
      rw [hlast]
      simp [hvalue]

theorem editCost_edit {target : List T} {step : Step} {edit : Edit T} (h : step.edit target = some edit) :
    editCost [edit] = stepCost [step] := by
  cases step with
  | keep => cases h; rfl
  | delete => cases h; rfl
  | insert index =>
    cases hvalue : target[index]? with
    | none => simp [Step.edit, hvalue] at h
    | some value =>
      obtain rfl : Edit.insert [value] = edit := by simpa [Step.edit, hvalue] using h
      rfl

/-- Merging a step into the last edit changes neither the run nor the cost. -/
theorem compressStep_spec {base target : List T} {edits : List (Edit T)} {step : Step} {edit : Edit T} {values : List T}
    {x : Nat} {after : List T × Nat} (hrun : edits.foldlM (applyEdit base) ([], 0) = .ok (values, x))
    (hedit : step.edit target = some edit) (hafter : applyEdit base (values, x) edit = .ok after)
    (hx : after.2 < u32Limit) :
    ∃ edits', compressStep target edits step = some edits' ∧ edits'.foldlM (applyEdit base) ([], 0) = .ok after ∧
      editCost edits' = editCost edits + stepCost [step] := by
  have hcount : ∀ init count, step = .keep ∧ edits = init ++ [.keep count] ∨
      step = .delete ∧ edits = init ++ [.delete count] → count + 1 < u32Limit := by
    rintro init count (⟨rfl, rfl⟩ | ⟨rfl, rfl⟩)
    · cases hedit
      have hle := count_le_of_run hrun (.inl rfl)
      unfold applyEdit at hafter
      dsimp only at hafter
      split_ifs at hafter
      cases hafter
      exact (Nat.succ_le_succ hle).trans_lt hx
    · cases hedit
      cases hafter
      exact (Nat.succ_le_succ (count_le_of_run hrun (.inr rfl))).trans_lt hx
  rcases compressStep_cases hedit hcount with happend | ⟨init, last, merged, rfl, hmerged, hmerges⟩
  · refine ⟨_, happend, ?_, ?_⟩
    · rw [runEdits_append hrun, runEdits_single, hafter]
    · rw [editCost_append, editCost_edit hedit]
  · refine ⟨_, hmerged, (hmerges base).run hrun hafter, ?_⟩
    rw [editCost_append, editCost_append, (hmerges base).cost, editCost_edit hedit, Nat.add_assoc]

section
variable [BEq T] {base target : List T}

def Agree (r t : T) : Prop := r = t ∨ (r == t) = true

theorem Walks.le {steps : List Step} {x y x' y' : Nat} (h : Walks base target steps x y x' y') : x ≤ x' ∧ y ≤ y' := by
  induction steps generalizing x y with
  | nil => exact ⟨h.1.le, h.2.le⟩
  | cons step steps ih =>
    cases step with
    | keep =>
      have := ih h.2
      omega
    | delete =>
      have := ih (x := x + 1) h
      omega
    | insert index =>
      have := ih h.2
      omega

theorem walk_step {step : Step} {steps : List Step} {x y x' y' : Nat} (hy' : y' ≤ target.length)
    (h : Walks base target (step :: steps) x y x' y') {values : List T}
    (hvalues : List.Forall₂ Agree values (target.take y)) :
    ∃ edit x₁ y₁ values', step.edit target = some edit ∧ applyEdit base (values, x) edit = .ok (values', x₁) ∧
      List.Forall₂ Agree values' (target.take y₁) ∧ Walks base target steps x₁ y₁ x' y' := by
  have hgrow : ∀ {a b : T}, target[y]? = some b → Agree a b →
      List.Forall₂ Agree (values ++ [a]) (target.take (y + 1)) := by
    intro a b hb hagree
    rw [List.take_add_one, hb]
    exact List.rel_append hvalues (.cons hagree .nil)
  cases step with
  | keep =>
    obtain ⟨⟨a, b, ha, hb, hab⟩, hrest⟩ := h
    refine ⟨.keep 1, x + 1, y + 1, values ++ [a], rfl, ?_, hgrow hb (.inr hab), hrest⟩
    have hx : x < base.length := (List.getElem?_eq_some_iff.1 ha).1
    unfold applyEdit
    dsimp only
    rw [if_pos (Nat.succ_le_of_lt hx), List.take_one, List.head?_drop, ha]
    rfl
  | delete => exact ⟨.delete 1, x + 1, y, values, rfl, rfl, hvalues, h⟩
  | insert index =>
    obtain ⟨rfl, hrest⟩ := h
    have hindex : index < target.length := hrest.le.2.trans hy'
    have hb : target[index]? = some target[index] := List.getElem?_eq_getElem hindex
    exact ⟨.insert [target[index]], x, index + 1, values ++ [target[index]], by simp [Step.edit, hb], rfl,
      hgrow hb (.inl rfl), hrest⟩

theorem compress_spec {steps : List Step} {x y x' y' : Nat} (hx' : x' < u32Limit) (hy' : y' ≤ target.length)
    (h : Walks base target steps x y x' y') (edits : List (Edit T)) (values : List T)
    (hrun : edits.foldlM (applyEdit base) ([], 0) = .ok (values, x))
    (hvalues : List.Forall₂ Agree values (target.take y)) :
    ∃ edits' values', steps.foldlM (compressStep target) edits = some edits' ∧
      edits'.foldlM (applyEdit base) ([], 0) = .ok (values', x') ∧ List.Forall₂ Agree values' (target.take y') ∧
      editCost edits' = editCost edits + stepCost steps := by
  induction steps generalizing x y edits values with
  | nil =>
    obtain ⟨rfl, rfl⟩ := h
    exact ⟨edits, values, rfl, hrun, hvalues, rfl⟩
  | cons step steps ih =>
    obtain ⟨edit, x₁, y₁, values₁, hedit, happly, hvalues₁, hrest⟩ := walk_step hy' h hvalues
    obtain ⟨edits₁, hcompress, hrun₁, hcost₁⟩ := compressStep_spec hrun hedit happly (hrest.le.1.trans_lt hx')
    obtain ⟨edits', values', hfold, hrun', hvalues', hcost⟩ := ih hrest edits₁ values₁ hrun₁ hvalues₁
    refine ⟨edits', values', ?_, hrun', hvalues', ?_⟩
    · rw [List.foldlM_cons, hcompress]
      exact hfold
    · rw [hcost, hcost₁, Nat.add_assoc, ← stepCost_append]
      rfl

/-! ## Scripts walk the grid -/

/-- Edits that apply to entries comparing equal to the target's. -/
def Reproduces (base target : List T) (edits : List (Edit T)) : Prop :=
  ∃ r, applyEdits base edits = .ok r ∧ List.Forall₂ (fun r t => (r == t) = true) r target

/-- An edit whose values stay a part of the target's entries walks the grid at its cost. -/
theorem path_of_applyEdit {edit : Edit T} {values values' r : List T} {d x x' : Nat}
    (h : applyEdit base (values, x) edit = .ok (values', x')) (hpre : values' <+: r)
    (hr : List.Forall₂ (fun r t => (r == t) = true) r target) (hpath : Path (Same base target) d x values.length) :
    Path (Same base target) (d + editCost [edit]) x' values'.length := by
  cases edit with
  | keep count =>
    unfold applyEdit at h
    dsimp only at h
    split_ifs at h with hstop
    cases h
    have hlength : ((base.drop x).take count).length = count := by
      rw [List.length_take, List.length_drop]
      omega
    rw [List.length_append, hlength]
    refine hpath.snake fun i hi => ?_
    have hx : x + i < base.length := by omega
    -- the kept entry is an entry of the result
    have hkept : r[values.length + i]? = some base[x + i] := by
      obtain ⟨more, rfl⟩ := hpre
      rw [List.getElem?_append_left (by rw [List.length_append, hlength]; omega),
        List.getElem?_append_right (Nat.le_add_right _ _), Nat.add_sub_cancel_left, List.getElem?_take_of_lt hi,
        List.getElem?_drop, List.getElem?_eq_getElem hx]
    obtain ⟨hinside, hentry⟩ := List.getElem?_eq_some_iff.1 hkept
    have htarget : values.length + i < target.length := hr.length_eq ▸ hinside
    refine ⟨base[x + i], target[values.length + i], List.getElem?_eq_getElem hx, List.getElem?_eq_getElem htarget, ?_⟩
    rw [← hentry]
    exact hr.get hinside htarget
  | delete count =>
    cases h
    exact hpath.deletes count
  | insert inserted =>
    cases h
    rw [List.length_append]
    exact hpath.inserts inserted.length

theorem path_of_runEdits {edits : List (Edit T)} {values r : List T} {d x x' : Nat}
    (h : edits.foldlM (applyEdit base) (values, x) = .ok (r, x'))
    (hr : List.Forall₂ (fun r t => (r == t) = true) r target) (hpath : Path (Same base target) d x values.length) :
    Path (Same base target) (d + editCost edits) x' r.length := by
  induction edits generalizing values d x with
  | nil =>
    cases h
    exact hpath
  | cons edit edits ih =>
    obtain ⟨⟨values₁, x₁⟩, hedit, hrest⟩ := runEdits_cons h
    have := ih hrest (path_of_applyEdit hedit (runEdits_initial hrest) hr hpath)
    rwa [Nat.add_assoc, ← editCost_append] at this

theorem Reproduces.path {edits : List (Edit T)} (h : Reproduces base target edits) :
    Path (Same base target) (editCost edits) base.length target.length := by
  obtain ⟨r, happly, hr⟩ := h
  have := path_of_runEdits (applyEdits_ok.1 happly) hr .start
  rwa [Nat.zero_add, hr.length_eq] at this

/-! ## The search -/

section
variable {limit : Nat}

/-- What a search answers: a script of a path's cost below which there is no path, or no path up to the limit. -/
def Answers (limit : Nat) (base target : List T) : Option (List (Edit T)) → Prop
  | some edits => ∃ r, applyEdits base edits = .ok r ∧ List.Forall₂ Agree r target ∧ editCost edits ≤ limit ∧
      ∀ d < editCost edits, ¬Path (Same base target) d base.length target.length
  | none => ∀ d ≤ limit, ¬Path (Same base target) d base.length target.length

theorem backtrack_spec (hshort : Short limit base target) {trace : List Frontier} {d : Nat} (hd : d ≤ limit)
    (htrace : ∀ e < d, ∃ frontier, (trace)[e + 1]? = some frontier ∧ Holds base target limit frontier e)
    (hfurthest : Furthest (Same base target) d ((base.length : Int) - target.length) base.length) :
    ∃ edits r, backtrack trace base.length target ((limit : Int) + 1) d = some edits ∧
      applyEdits base edits = .ok r ∧ List.Forall₂ Agree r target ∧ editCost edits = d := by
  obtain ⟨count, steps, hrounds, hcost, hsnake, hwalks⟩ := backtrackRounds_spec hshort hd htrace hfurthest
    [] ⟨rfl, rfl⟩
  have hcount : count < usizeLimit := by
    have hle := hwalks.le.1
    have hbase := hshort.base
    have hlimits : u32Limit < usizeLimit := by decide
    omega
  have hall : Walks base target (steps ++ List.replicate count Step.keep).reverse 0 0 base.length target.length := by
    rw [List.reverse_append, List.reverse_replicate]
    refine walks_snake hsnake ?_
    rwa [Nat.zero_add]
  obtain ⟨edits, r, hcompress, hrun, hr, hedits⟩ := compress_spec hshort.base le_rfl hall
    [] [] rfl .nil
  rw [List.take_length] at hr
  refine ⟨edits, r, ?_, applyEdits_ok.2 hrun, hr, ?_⟩
  · unfold backtrack
    simp only [hrounds, Option.bind_eq_bind, Option.bind_some, asUsize_natCast hcount]
    exact hcompress
  · rw [hedits, stepCost_reverse, stepCost_append, stepCost_replicate_keep, hcost]
    show 0 + (0 + d + 0) = d
    omega

theorem searchRounds_spec (hshort : Short limit base target) (trace : List Frontier) {frontier : Frontier}
    (hfits : frontier.Fits limit) (hfeeds : Feeds base target limit frontier trace.length)
    (htrace : ∀ e, e + 1 < trace.length →
      ∃ frontier, (trace)[e + 1]? = some frontier ∧ Holds base target limit frontier e)
    (hnone : ∀ d < trace.length, ¬Path (Same base target) d base.length target.length) {rounds : Nat}
    (hrounds : trace.length + rounds = limit + 1) :
    ∃ answer, searchRounds base target ((limit : Int) + 1) (List.range' trace.length rounds) trace frontier = some answer ∧
      Answers limit base target answer := by
  induction rounds generalizing trace frontier with
  | zero => exact ⟨none, rfl, fun d hd => hnone d (by omega)⟩
  | succ rounds ih =>
    obtain ⟨distance, hdistance⟩ : ∃ distance, distance = trace.length := ⟨_, rfl⟩
    have hlimit : distance ≤ limit := by omega
    -- the recorded frontier of each round up to this one
    have htrace' : ∀ e < distance, ∃ frontier', (trace ++ [frontier])[e + 1]? = some frontier' ∧
        Holds base target limit frontier' e := by
      intro e he
      rcases Nat.lt_or_ge (e + 1) trace.length with hlt | hge
      · obtain ⟨frontier', hfrontier', hholds⟩ := htrace e hlt
        exact ⟨frontier', by rw [List.getElem?_append_left hlt, hfrontier'], hholds⟩
      · have hlast : trace.length = e + 1 := by omega
        rw [hlast] at hfeeds
        exact ⟨frontier, by rw [← hlast]; exact List.getElem?_concat_length, hfeeds⟩
    rw [← hdistance] at hfeeds hnone
    obtain ⟨frontier', reached, hextend, hfits', hends, hholds⟩ :=
      extendDiagonals_spec hshort hfits hfeeds hlimit [] (List.nil_append _) (fun k hk => absurd hk List.not_mem_nil)
    rw [← hdistance, List.range'_succ]
    unfold searchRounds
    simp only [hextend, Option.bind_eq_bind, Option.bind_some]
    cases reached with
    | true =>
      obtain ⟨k, x, hfurthest, hpast⟩ := hends rfl
      obtain ⟨edits, r, hbacktrack, happly, hr, hcost⟩ :=
        backtrack_spec hshort hlimit htrace' (furthest_of_ends hfurthest hpast hnone)
      refine ⟨some edits, ?_, r, happly, hr, hcost ▸ hlimit, hcost ▸ hnone⟩
      rw [if_pos rfl, hbacktrack]
      rfl
    | false =>
      have hround := hholds rfl
      have hlength : (trace ++ [frontier]).length = distance + 1 := by rw [List.length_append, hdistance]; rfl
      rw [if_neg Bool.false_ne_true, ← hlength]
      refine ih (trace ++ [frontier]) hfits' ?_ (fun e he => htrace' e (by omega)) (fun d hd => ?_) (by omega)
      · rw [hlength]
        exact fun k hk => (hround k hk).imp fun x hx => ⟨hx.1, hx.2.1⟩
      · rcases Nat.lt_succ_iff_lt_or_eq.1 (hlength ▸ hd) with hd | rfl
        · exact hnone d hd
        · exact not_path_of_round hround

theorem editScriptUpTo_spec (limit : Nat) (hshort : Short limit base target) :
    ∃ answer, editScriptUpTo limit base target = some answer ∧ Answers limit base target answer := by
  unfold editScriptUpTo
  rw [List.range_eq_range']
  refine searchRounds_spec hshort [] ?_ ?_ (fun e he => absurd he (Nat.not_lt_zero _))
    (fun d hd => absurd hd (Nat.not_lt_zero d)) (Nat.zero_add _)
  · unfold Frontier.Fits
    rw [List.length_replicate]
    omega
  · show Frontier.read _ _ 1 = some 0
    unfold Frontier.read
    rw [if_pos (by omega), List.getElem?_replicate, if_pos (by omega)]

end

/-! ## The difference of two lists -/

/-- The entries a list of replacements leaves: the base's where it compares equal, else the target's. -/
def patched (base target : List T) : List T := List.zipWith (fun b t => if b != t then t else b) base target

theorem patched_agree (h : base.length = target.length) : List.Forall₂ Agree (patched base target) target := by
  induction base generalizing target with
  | nil =>
    rw [List.eq_nil_of_length_eq_zero h.symm]
    exact .nil
  | cons b base ih =>
    cases target with
    | nil => cases h
    | cons t target =>
      refine .cons ?_ (ih (Nat.succ.inj h))
      cases hbt : b == t with
      | true => exact .inr (by simp [bne, hbt])
      | false => exact .inl (by simp [bne, hbt])

theorem applyReplacements_spec (done : List T) (h : base.length = target.length)
    (hshort : done.length + base.length < u32Limit) :
    ((((base.zip target).zipIdx done.length).filter fun entry => entry.1.1 != entry.1.2).map fun entry =>
      (entry.2 % u32Limit, entry.1.2)).foldlM applyReplacement (done ++ base) = .ok (done ++ patched base target) := by
  induction base generalizing target done with
  | nil => rfl
  | cons b base ih =>
    cases target with
    | nil => cases h
    | cons t target =>
      rw [List.length_cons] at hshort
      have ih' := fun value : T => ih (done ++ [value]) (Nat.succ.inj h) (by
        rw [List.length_append]
        show done.length + 1 + base.length < u32Limit
        omega)
      simp only [List.length_append, List.length_singleton, List.append_assoc, List.singleton_append] at ih'
      rw [List.zip_cons_cons, List.zipIdx_cons]
      cases hbt : b != t with
      | false =>
        rw [List.filter_cons_of_neg (by simpa using hbt), ih' b]
        unfold patched
        rw [List.zipWith_cons_cons, hbt]
        rfl
      | true =>
        rw [List.filter_cons_of_pos (by simpa using hbt), List.map_cons, List.foldlM_cons]
        have hset : applyReplacement (done ++ b :: base) (done.length % u32Limit, t) = .ok (done ++ t :: base) := by
          unfold applyReplacement
          dsimp only
          rw [Nat.mod_eq_of_lt (by omega), if_pos (by rw [List.length_append]; simp), List.set_append_right _ _ le_rfl,
            Nat.sub_self]
          rfl
        rw [hset]
        show List.foldlM _ _ _ = _
        rw [ih' t]
        unfold patched
        rw [List.zipWith_cons_cons, hbt]
        rfl

theorem replace_apply (h : base.length = target.length) (hshort : base.length < u32Limit) :
    (VecDelta.replace (replacementsOf base target)).apply base = .ok (patched base target) := by
  have := applyReplacements_spec [] h (by simpa using hshort)
  exact this

theorem VecDelta.diff_spec (hbase : base.length < u32Limit) (htarget : target.length < u32Limit) :
    ∃ delta r, VecDelta.diff base target = some delta ∧ delta.apply base = .ok r ∧ List.Forall₂ Agree r target := by
  obtain ⟨answer, hanswer, hspec⟩ := editScriptUpTo_spec maxEditDistance ⟨hbase, htarget, by decide⟩
  have hedits : ∀ {edits}, answer = some edits →
      ∃ r, (VecDelta.edits edits).apply base = .ok r ∧ List.Forall₂ Agree r target := by
    rintro edits rfl
    exact hspec.imp fun r hr => ⟨hr.1, hr.2.1⟩
  unfold VecDelta.diff editScript
  simp only [hanswer, Option.bind_eq_bind, Option.bind_some]
  by_cases hlength : base.length = target.length
  · have hreplace : ∃ r, (VecDelta.replace (replacementsOf base target)).apply base = .ok r ∧
        List.Forall₂ Agree r target := ⟨_, replace_apply hlength hbase, patched_agree hlength⟩
    simp only [if_pos hlength]
    by_cases hfew : (replacementsOf base target).length ≤ minShiftReplacements
    · rw [if_pos hfew]
      obtain ⟨r, hr⟩ := hreplace
      exact ⟨_, r, rfl, hr⟩
    · rw [if_neg hfew]
      cases answer with
      | none =>
        obtain ⟨r, hr⟩ := hreplace
        exact ⟨_, r, rfl, hr⟩
      | some edits =>
        by_cases hless : carried edits < (replacementsOf base target).length
        · obtain ⟨r, hr⟩ := hedits rfl
          exact ⟨_, r, if_pos hless, hr⟩
        · obtain ⟨r, hr⟩ := hreplace
          exact ⟨_, r, if_neg hless, hr⟩
  · simp only [if_neg hlength]
    cases answer with
    | none => exact ⟨.whole target, target, rfl, rfl, List.forall₂_same.2 fun t _ => .inl rfl⟩
    | some edits =>
      obtain ⟨r, hr⟩ := hedits rfl
      exact ⟨_, r, rfl, hr⟩

end

end Rumoca.Solve.ChartDelta
