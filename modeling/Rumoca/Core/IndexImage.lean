import Mathlib.Algebra.BigOperators.Group.List.Basic
import Mathlib.Data.List.Induction
import Mathlib.Data.List.ReduceOption
import Rumoca.Core.IndexSets
import Rumoca.Lib.Loop
/-!
# When an image is exact

The elements of each answer of `image` against the tuples that the axes name.
Terms that tile and offset blocks that tile are sums of sets, so an axis that is
declared exact holds the values of its form over the binders that it reads.
Axes that read different binders are independent, provided that every binder has
a value.
-/

namespace Rumoca.Core

open Progression Rumoca.Lib

/-! ## What the axes name -/

def AffineForm.value (form : AffineForm) (p : Nat → Int) : Int :=
  form.constant + ((List.range form.coeffs.length).map fun binder => form.scale binder * p binder).sum

def InRegion (region : IndexBox) (p : Nat → Int) : Prop :=
  ∀ binder values, region[binder]? = some values → p binder ∈ values

def IndexAxis.NamedAt (axis : IndexAxis) (p : Nat → Int) (x : Int) : Prop :=
  ∃ offsets ∈ axis.offsets, ∃ o ∈ offsets, x = axis.form.value p + o

/-- The index tuples that the axes name at some binder value of the region. -/
def Names (axes : List IndexAxis) (region : IndexBox) (index : List Int) : Prop :=
  ∃ p, InRegion region p ∧ List.Forall₂ (fun axis x => axis.NamedAt p x) axes index

def IndexUnion.Has (set : IndexUnion) (index : List Int) : Prop :=
  ∃ box ∈ set, List.Forall₂ (fun values x => x ∈ values) box index

def IndexAxis.NamesNothing (axis : IndexAxis) (region : IndexBox) : Prop :=
  (∀ offsets ∈ axis.offsets, offsets.count = 0) ∨
    ∃ binder ∈ axisBinders axis, ∃ values, region[binder]? = some values ∧ values.count = 0

/-! ## Sums of progressions -/

def SumOf : List Progression → Int → Prop
  | [], x => x = 0
  | term :: rest, x => ∃ t ∈ term, ∃ y, SumOf rest y ∧ x = t + y

theorem SumOf.perm {terms terms' : List Progression} (h : terms.Perm terms') {x : Int} (hx : SumOf terms x) :
    SumOf terms' x := by
  induction h generalizing x with
  | nil => exact hx
  | cons term _ ih =>
    obtain ⟨t, ht, y, hy, rfl⟩ := hx
    exact ⟨t, ht, y, ih hy, rfl⟩
  | swap term term' rest =>
    obtain ⟨t, ht, _, ⟨t', ht', y, hy, rfl⟩, rfl⟩ := hx
    exact ⟨t', ht', t + y, ⟨t, ht, y, hy, rfl⟩, by ring⟩
  | trans _ _ ih₁ ih₂ => exact ih₂ (ih₁ hx)

theorem tileTerms_spec {sum q : Progression} {rest : List Progression} (h : tileTerms sum rest = some (some q))
    (hsum : sum.count ≠ 0) (x : Int) : x ∈ q ↔ ∃ s ∈ sum, ∃ y, SumOf rest y ∧ x = s + y := by
  induction rest generalizing sum with
  | nil =>
    cases h
    simp [SumOf]
  | cons term rest ih =>
    rw [tileTerms] at h
    obtain ⟨shift, hshift, h⟩ := Option.bind_eq_some_iff.1 h
    obtain ⟨hterm, rfl⟩ := firstOf_eq_some hshift
    -- one step adds the elements of the term to those of the sum
    have hstep : ∀ {next : Progression}, tileTerms next rest = some (some q) →
        (∀ z, z ∈ next ↔ ∃ s ∈ sum, ∃ t ∈ term, z = s + t) →
        (x ∈ q ↔ ∃ s ∈ sum, ∃ y, SumOf (term :: rest) y ∧ x = s + y) := by
      intro next hrest hnext
      have hcount : next.count ≠ 0 :=
        exists_mem_iff.1 ⟨_, (hnext _).2 ⟨sum.first, first_mem hsum, term.first, first_mem hterm, rfl⟩⟩
      rw [ih hrest hcount]
      constructor
      · rintro ⟨z, hz, y, hy, rfl⟩
        obtain ⟨s, hs, t, ht, rfl⟩ := (hnext z).1 hz
        exact ⟨s, hs, t + y, ⟨t, ht, y, hy, rfl⟩, by ring⟩
      · rintro ⟨s, hs, _, ⟨t, ht, y, hy, rfl⟩, rfl⟩
        exact ⟨s + t, (hnext _).2 ⟨s, hs, t, ht, rfl⟩, y, hy, by ring⟩
    by_cases hone : term.count = 1
    · rw [if_pos hone] at h
      obtain ⟨next, hnext, h⟩ := Option.bind_eq_some_iff.1 h
      refine hstep h fun z => (mem_affineImage hnext).trans ?_
      simp [mem_of_count_one hone]
    · rw [if_neg hone] at h
      by_cases hsingle : sum.count = 1
      · rw [if_pos hsingle] at h
        obtain ⟨first, hfirst, h⟩ := Option.bind_eq_some_iff.1 h
        obtain ⟨next, hnext, h⟩ := Option.bind_eq_some_iff.1 h
        rw [(firstOf_eq_some hfirst).2] at hnext
        refine hstep h fun z => (mem_affineImage hnext).trans ?_
        simp [mem_of_count_one hsingle, add_comm]
      · rw [if_neg hsingle] at h
        obtain ⟨span, hspan, h⟩ := Option.bind_eq_some_iff.1 h
        by_cases htile : term.step = span
        · rw [if_pos htile] at h
          obtain ⟨first, hfirst, h⟩ := Option.bind_eq_some_iff.1 h
          obtain ⟨lower, hlower, h⟩ := Option.bind_eq_some_iff.1 h
          obtain ⟨last, hlast, h⟩ := Option.bind_eq_some_iff.1 h
          obtain ⟨termLast, htermLast, h⟩ := Option.bind_eq_some_iff.1 h
          obtain ⟨upper, hupper, h⟩ := Option.bind_eq_some_iff.1 h
          obtain ⟨next, hnext, h⟩ := Option.bind_eq_some_iff.1 h
          rw [checkedI64_value hlower, checkedI64_value hupper, (firstOf_eq_some hfirst).2,
            (lastOf_eq_some hlast).2, (lastOf_eq_some htermLast).2] at hnext
          exact hstep h fun z => mem_tiled hsum hterm (htile.trans (checkedI64_value hspan)) hnext
        · rw [if_neg htile] at h
          cases h

/-! ## Offsets -/

theorem offsetsFrom_spec {step last : Int} {fuel : Nat} {value : Int} {values found : List Int} (hstep : 0 < step)
    (h : offsetsFrom step last fuel value values = some found) (x : Int) :
    x ∈ found ↔ x ∈ values ∨ ∃ k : Nat, x = value + k * step ∧ x ≤ last := by
  induction fuel generalizing value values with
  | zero => cases h
  | succ fuel ih =>
    rw [offsetsFrom] at h
    split_ifs at h with hle hlimit
    · obtain ⟨next, hnext, h⟩ := Option.bind_eq_some_iff.1 h
      rw [ih h, checkedI64_value hnext, List.mem_append, List.mem_singleton, or_assoc]
      refine or_congr_right ?_
      constructor
      · rintro (rfl | ⟨k, rfl, hk⟩)
        · exact ⟨0, by simp, hle⟩
        · refine ⟨k + 1, ?_, hk⟩
          push_cast
          ring
      · rintro ⟨k, rfl, hk⟩
        cases k with
        | zero => exact .inl (by simp)
        | succ k =>
          refine .inr ⟨k, ?_, hk⟩
          push_cast
          ring
    · cases h
      refine (or_iff_left ?_).symm
      rintro ⟨k, rfl, hk⟩
      have := mul_nonneg (Int.natCast_nonneg k) hstep.le
      linarith

theorem offsetsOf_spec {offsets : Progression} {found : List Int} (h : offsetsOf offsets = some found) (x : Int) :
    x ∈ found ↔ x ∈ offsets := by
  unfold offsetsOf at h
  by_cases hcount : offsets.count = 0
  · have hfirst : offsets.firstOf = none := if_pos hcount
    rw [hfirst] at h
    cases h
    exact iff_of_false List.not_mem_nil (not_mem_of_count hcount)
  · have hfirst : offsets.firstOf = some offsets.first := if_neg hcount
    have hlast : offsets.lastOf = some (offsets.first + (offsets.count - 1) * offsets.step) := if_neg hcount
    rw [hfirst, hlast] at h
    rw [offsetsFrom_spec offsets.step_pos h]
    constructor
    · rintro (hx | ⟨k, rfl, hk⟩)
      · cases hx
      · have hle : (k : Int) ≤ offsets.count - 1 := le_of_mul_le_mul_right (by linarith) offsets.step_pos
        exact ⟨k, by omega, rfl⟩
    · intro hx
      have hle := le_last hx
      obtain ⟨k, -, rfl⟩ := hx
      exact .inr ⟨k, rfl, hle⟩

def AnyHas (parts : List Progression) (x : Int) : Prop := ∃ part ∈ parts, x ∈ part

theorem anyHas_singleton {part : Progression} {x : Int} : AnyHas [part] x ↔ x ∈ part := by simp [AnyHas]

theorem shiftedImages_spec {base offsets : Progression} {parts : List Progression}
    (h : shiftedImages base offsets = some parts) (x : Int) : AnyHas parts x ↔ ∃ b ∈ base, ∃ o ∈ offsets, x = b + o := by
  unfold shiftedImages at h
  by_cases hbase : base.count = 0
  · rw [show base.firstOf = none from if_pos hbase] at h
    cases h
    rw [anyHas_singleton]
    exact iff_of_false not_mem_empty fun ⟨b, hb, _⟩ => not_mem_of_count hbase hb
  · rw [show base.firstOf = some base.first from if_neg hbase,
      show base.lastOf = some (base.first + (base.count - 1) * base.step) from if_neg hbase] at h
    by_cases hoffsets : offsets.count = 0
    · rw [show offsets.firstOf = none from if_pos hoffsets] at h
      cases h
      rw [anyHas_singleton]
      exact iff_of_false not_mem_empty fun ⟨_, _, o, ho, _⟩ => not_mem_of_count hoffsets ho
    · rw [show offsets.firstOf = some offsets.first from if_neg hoffsets,
        show offsets.lastOf = some (offsets.first + (offsets.count - 1) * offsets.step) from if_neg hoffsets] at h
      simp only at h
      by_cases hsingle : offsets.first = offsets.first + (offsets.count - 1) * offsets.step
      · rw [if_pos hsingle] at h
        obtain ⟨part, hpart, rfl⟩ := Option.map_eq_some_iff.1 h
        have hone : offsets.count = 1 := by
          have hzero : ((offsets.count : Int) - 1) * offsets.step = 0 := by linarith
          rcases mul_eq_zero.1 hzero with hcount | hstep
          · omega
          · exact absurd hstep offsets.step_pos.ne'
        rw [anyHas_singleton, mem_affineImage hpart]
        simp [mem_of_count_one hone]
      · rw [if_neg hsingle] at h
        obtain ⟨width, hwidth, h⟩ := Option.bind_eq_some_iff.1 h
        obtain ⟨count, hcount, h⟩ := Option.bind_eq_some_iff.1 h
        obtain ⟨tiles, htiles, h⟩ := Option.bind_eq_some_iff.1 h
        have hcount' : count = offsets.count := by
          rw [checkedI64_value hcount, checkedI64_value hwidth, add_sub_cancel_left,
            Int.mul_ediv_cancel _ offsets.step_pos.ne']
          ring
        cases tiles with
        | true =>
          simp only [if_true] at h
          obtain ⟨lower, hlower, h⟩ := Option.bind_eq_some_iff.1 h
          obtain ⟨upper, hupper, h⟩ := Option.bind_eq_some_iff.1 h
          obtain ⟨part, hpart, rfl⟩ := Option.map_eq_some_iff.1 h
          rw [checkedI64_value hlower, checkedI64_value hupper] at hpart
          rw [anyHas_singleton]
          by_cases hfixed : base.first = base.first + (base.count - 1) * base.step
          · -- one base element: the offsets moved by it
            have hone : base.count = 1 := by
              have hzero : ((base.count : Int) - 1) * base.step = 0 := by linarith
              rcases mul_eq_zero.1 hzero with hcount | hstep
              · omega
              · exact absurd hstep base.step_pos.ne'
            obtain ⟨hfirst, hstep, hlength⟩ := range_spec offsets.step_pos (n := offsets.count - 1)
              (by rw [← hfixed, Nat.cast_sub (Nat.pos_of_ne_zero hoffsets)]; push_cast; ring) hpart
            rw [mem_iff, hfirst, hstep, hlength]
            constructor
            · rintro ⟨k, hk, rfl⟩
              exact ⟨base.first, first_mem hbase, _, ⟨k, by omega, rfl⟩, by ring⟩
            · rintro ⟨b, hb, o, ⟨k, hk, rfl⟩, rfl⟩
              rw [(mem_of_count_one hone).1 hb]
              exact ⟨k, by omega, by ring⟩
          · rw [tilesGaps, if_neg hfixed] at htiles
            obtain ⟨span, hspan, htiles⟩ := Option.map_eq_some_iff.1 htiles
            have htile : base.step = offsets.step * offsets.count := by
              rw [← of_decide_eq_true htiles, checkedI64_value hspan, hcount']
            rw [add_comm base.first, add_comm (base.first + _)] at hpart
            rw [mem_tiled hoffsets hbase htile hpart]
            constructor
            · rintro ⟨o, ho, b, hb, rfl⟩
              exact ⟨b, hb, o, ho, by ring⟩
            · rintro ⟨b, hb, o, ho, rfl⟩
              exact ⟨o, ho, b, hb, by ring⟩
        | false =>
          simp only [Bool.false_eq_true, if_false] at h
          obtain ⟨values, hvalues, h⟩ := Option.bind_eq_some_iff.1 h
          have hoffset := offsetsOf_spec hvalues
          constructor
          · rintro ⟨part, hpart, hx⟩
            obtain ⟨o, ho, hpart⟩ := mapM_mem h part hpart
            obtain ⟨b, hb, rfl⟩ := (mem_affineImage hpart).1 hx
            exact ⟨b, hb, o, (hoffset o).1 ho, by ring⟩
          · rintro ⟨b, hb, o, ho, rfl⟩
            obtain ⟨part, hpart, himage⟩ := mapM_forall h o ((hoffset o).2 ho)
            exact ⟨part, hpart, (mem_affineImage himage).2 ⟨b, hb, by ring⟩⟩

/-! ## One axis -/

def Reads (binders : List Nat) (region : IndexBox) (p : Nat → Int) : Prop :=
  ∀ binder ∈ binders, ∃ values, region[binder]? = some values ∧ p binder ∈ values

def IndexAxis.Has (axis : IndexAxis) (region : IndexBox) (x : Int) : Prop :=
  ∃ p, Reads (axisBinders axis) region p ∧ axis.NamedAt p x

theorem axisBinders_nodup (axis : IndexAxis) : (axisBinders axis).Nodup := List.nodup_range.filter _

theorem value_eq (axis : IndexAxis) (p : Nat → Int) :
    axis.form.value p = axis.form.constant + ((axisBinders axis).map fun binder => axis.form.scale binder * p binder).sum := by
  unfold AffineForm.value axisBinders
  congr 1
  induction List.range axis.form.coeffs.length with
  | nil => rfl
  | cons binder rest ih =>
    rw [List.map_cons, List.sum_cons, List.filter_cons]
    by_cases hzero : axis.form.scale binder = 0
    · simp [hzero, ih]
    · simp [hzero, ih]

theorem NamedAt.congr {axis : IndexAxis} {p p' : Nat → Int} (h : ∀ binder ∈ axisBinders axis, p binder = p' binder)
    {x : Int} (hx : axis.NamedAt p x) : axis.NamedAt p' x := by
  have hvalue : axis.form.value p = axis.form.value p' := by
    rw [value_eq, value_eq, List.map_congr_left fun binder hb => by rw [h binder hb]]
  unfold IndexAxis.NamedAt at hx ⊢
  rwa [hvalue] at hx

theorem sumOf_terms {axis : IndexAxis} {region : IndexBox} {binders : List Nat} {terms : List Progression}
    (h : binders.mapM (termImage axis region) = some terms) (hnodup : binders.Nodup) (y : Int) : SumOf terms y ↔
      ∃ p, Reads binders region p ∧ y = (binders.map fun binder => axis.form.scale binder * p binder).sum := by
  induction binders generalizing terms y with
  | nil =>
    cases h
    simp [SumOf, Reads]
  | cons binder rest ih =>
    obtain ⟨hnew, hrest⟩ := List.nodup_cons.1 hnodup
    rw [List.mapM_cons] at h
    obtain ⟨term, hterm, h⟩ := Option.bind_eq_some_iff.1 h
    obtain ⟨terms, hterms, h⟩ := Option.bind_eq_some_iff.1 h
    cases h
    obtain ⟨values, hvalues, himage⟩ := Option.bind_eq_some_iff.1 hterm
    constructor
    · rintro ⟨t, ht, z, hz, rfl⟩
      obtain ⟨v, hv, rfl⟩ := (mem_affineImage himage).1 ht
      obtain ⟨p, hp, rfl⟩ := (ih hterms hrest z).1 hz
      -- the other binders keep their values
      have hother : ∀ b ∈ rest, Function.update p binder v b = p b := by
        intro b hb
        refine Function.update_of_ne ?_ v p
        rintro rfl
        exact hnew hb
      have hsum : rest.map (fun b => axis.form.scale b * Function.update p binder v b) =
          rest.map fun b => axis.form.scale b * p b := List.map_congr_left fun b hb => by rw [hother b hb]
      refine ⟨Function.update p binder v, ?_, ?_⟩
      · intro b hb
        rcases List.mem_cons.1 hb with rfl | hb
        · exact ⟨values, hvalues, by rwa [Function.update_self]⟩
        · obtain ⟨values', hvalues', hmem⟩ := hp b hb
          exact ⟨values', hvalues', by rwa [hother b hb]⟩
      · rw [List.map_cons, List.sum_cons, Function.update_self, hsum]
        ring
    · rintro ⟨p, hp, rfl⟩
      obtain ⟨values', hvalues', hmem⟩ := hp binder List.mem_cons_self
      cases hvalues.symm.trans hvalues'
      refine ⟨_, (mem_affineImage himage).2 ⟨p binder, hmem, rfl⟩, _,
        (ih hterms hrest _).2 ⟨p, fun b hb => hp b (List.mem_cons_of_mem binder hb), rfl⟩, ?_⟩
      rw [List.map_cons, List.sum_cons]
      ring

theorem tiledSum_spec {axis : IndexAxis} {region : IndexBox} {binders : List Nat} {q : Progression}
    (h : tiledSum axis binders region = some (some q)) (hnodup : binders.Nodup) (y : Int) : y ∈ q ↔
      ∃ p, Reads binders region p ∧ y = (binders.map fun binder => axis.form.scale binder * p binder).sum := by
  unfold tiledSum at h
  obtain ⟨terms, hterms, h⟩ := Option.bind_eq_some_iff.1 h
  rw [← sumOf_terms hterms hnodup]
  by_cases hempty : terms.any (·.count = 0) = true
  · rw [if_pos hempty] at h
    cases h
    refine iff_of_false not_mem_empty ?_
    obtain ⟨term, hterm, hcount⟩ := List.any_eq_true.1 hempty
    have hcount' : term.count = 0 := of_decide_eq_true hcount
    clear hterms hempty
    induction terms generalizing y with
    | nil => cases hterm
    | cons first rest ih =>
      rintro ⟨t, ht, z, hz, -⟩
      rcases List.mem_cons.1 hterm with rfl | hterm
      · exact not_mem_of_count hcount' ht
      · exact ih z hterm hz
  · rw [if_neg hempty] at h
    have hperm := List.mergeSort_perm terms fun a b => decide (termKey a ≤ termKey b)
    have hcounts : ∀ term ∈ terms, term.count ≠ 0 := fun term hterm hcount =>
      hempty (List.any_eq_true.2 ⟨term, hterm, decide_eq_true hcount⟩)
    cases hsorted : terms.mergeSort fun a b => decide (termKey a ≤ termKey b) with
    | nil =>
      rw [hsorted] at h
      cases h
    | cons first rest =>
      rw [hsorted] at h hperm
      rw [tileTerms_spec h (hcounts first (hperm.mem_iff.1 List.mem_cons_self))]
      exact ⟨fun hsum => SumOf.perm hperm hsum, fun hsum => SumOf.perm hperm.symm hsum⟩

theorem anyHas_shifted {axis : IndexAxis} {region : IndexBox} {base : Progression} {parts : List (List Progression)}
    (hbase : ∀ y, y ∈ base ↔ ∃ p, Reads (axisBinders axis) region p ∧ y = axis.form.value p)
    (h : axis.offsets.mapM (shiftedImages base) = some parts) (x : Int) :
    AnyHas parts.flatten x ↔ axis.Has region x := by
  constructor
  · rintro ⟨part, hpart, hx⟩
    obtain ⟨group, hgroup, hmem⟩ := List.mem_flatten.1 hpart
    obtain ⟨offsets, hoffsets, hshift⟩ := mapM_mem h group hgroup
    obtain ⟨b, hb, o, ho, rfl⟩ := (shiftedImages_spec hshift x).1 ⟨part, hmem, hx⟩
    obtain ⟨p, hp, rfl⟩ := (hbase b).1 hb
    exact ⟨p, hp, offsets, hoffsets, o, ho, rfl⟩
  · rintro ⟨p, hp, offsets, hoffsets, o, ho, rfl⟩
    obtain ⟨group, hgroup, hshift⟩ := mapM_forall h offsets hoffsets
    obtain ⟨part, hpart, hx⟩ := (shiftedImages_spec hshift _).2 ⟨_, (hbase _).2 ⟨p, hp, rfl⟩, o, ho, rfl⟩
    exact ⟨part, List.mem_flatten.2 ⟨group, hgroup, hpart⟩, hx⟩

theorem hullBounds_spec {axis : IndexAxis} {region : IndexBox} {binders : List Nat} {lower upper : Int}
    {result : Option (Int × Int)} (h : hullBounds axis region binders lower upper = some result) {p : Nat → Int}
    (hp : Reads binders region p) : ∃ lower' upper', result = some (lower', upper') ∧
      lower' ≤ lower + (binders.map fun binder => axis.form.scale binder * p binder).sum ∧
      upper + (binders.map fun binder => axis.form.scale binder * p binder).sum ≤ upper' := by
  induction binders generalizing lower upper with
  | nil =>
    cases h
    exact ⟨lower, upper, rfl, by simp, by simp⟩
  | cons binder rest ih =>
    rw [hullBounds] at h
    obtain ⟨values, hvalues, h⟩ := Option.bind_eq_some_iff.1 h
    obtain ⟨values', hvalues', hmem⟩ := hp binder List.mem_cons_self
    cases hvalues.symm.trans hvalues'
    have hcount : values.count ≠ 0 := exists_mem_iff.1 ⟨_, hmem⟩
    rw [show values.firstOf = some values.first from if_neg hcount,
      show values.lastOf = some (values.first + (values.count - 1) * values.step) from if_neg hcount] at h
    obtain ⟨a, ha, h⟩ := Option.bind_eq_some_iff.1 h
    obtain ⟨b, hb, h⟩ := Option.bind_eq_some_iff.1 h
    obtain ⟨lower₁, hlower, h⟩ := Option.bind_eq_some_iff.1 h
    obtain ⟨upper₁, hupper, h⟩ := Option.bind_eq_some_iff.1 h
    obtain ⟨lower', upper', hresult, hle, hge⟩ := ih h fun b' hb' => hp b' (List.mem_cons_of_mem binder hb')
    refine ⟨lower', upper', hresult, ?_⟩
    have ha' := checkedI64_value ha
    have hb' := checkedI64_value hb
    have hlower' := checkedI64_value hlower
    have hupper' := checkedI64_value hupper
    have hbetween : min a b ≤ axis.form.scale binder * p binder ∧ axis.form.scale binder * p binder ≤ max a b := by
      rw [ha', hb']
      rcases le_total 0 (axis.form.scale binder) with hpos | hneg
      · exact ⟨min_le_of_left_le (mul_le_mul_of_nonneg_left (first_le hmem) hpos),
          le_max_of_le_right (mul_le_mul_of_nonneg_left (le_last hmem) hpos)⟩
      · exact ⟨min_le_of_right_le (mul_le_mul_of_nonpos_left (le_last hmem) hneg),
          le_max_of_le_left (mul_le_mul_of_nonpos_left (first_le hmem) hneg)⟩
    rw [List.map_cons, List.sum_cons]
    constructor <;> linarith [hbetween.1, hbetween.2]

theorem mem_range_one {lower upper x : Int} {q : Progression} (h : range lower 1 upper = some q) (hle : lower ≤ x)
    (hge : x ≤ upper) : x ∈ q := by
  obtain ⟨hfirst, hstep, hcount⟩ := range_spec Int.one_pos (n := (upper - lower).toNat) (by omega) h
  exact mem_iff.2 ⟨(x - lower).toNat, by omega, by rw [hfirst, hstep]; omega⟩

theorem axisImage_binders {axis : IndexAxis} {region : IndexBox} {result : List Progression × Bool}
    (h : axisImage axis region = some result) : ∀ binder ∈ axisBinders axis, ∃ values, region[binder]? = some values := by
  unfold axisImage at h
  rcases hbinders : axisBinders axis with _ | ⟨b, _ | ⟨b', rest⟩⟩
  · simp
  · rw [hbinders] at h
    obtain ⟨values, hvalues, -⟩ := Option.bind_eq_some_iff.1 h
    intro binder hb
    rw [List.mem_singleton.1 hb]
    exact ⟨values, hvalues⟩
  · rw [hbinders] at h
    obtain ⟨tiled, htiled, -⟩ := Option.bind_eq_some_iff.1 h
    obtain ⟨terms, hterms, -⟩ := Option.bind_eq_some_iff.1 htiled
    intro binder hb
    obtain ⟨term, -, hterm⟩ := mapM_forall hterms binder hb
    obtain ⟨values, hvalues, -⟩ := Option.bind_eq_some_iff.1 hterm
    exact ⟨values, hvalues⟩

theorem axisImage_spec {axis : IndexAxis} {region : IndexBox} {parts : List Progression} {exact : Bool}
    (h : axisImage axis region = some (parts, exact)) (x : Int) :
    (axis.Has region x → AnyHas parts x) ∧ (exact = true → AnyHas parts x → axis.Has region x) := by
  have hiff : (AnyHas parts x ↔ axis.Has region x) →
      (axis.Has region x → AnyHas parts x) ∧ (exact = true → AnyHas parts x → axis.Has region x) :=
    fun h => ⟨h.2, fun _ => h.1⟩
  have hnodup := axisBinders_nodup axis
  unfold axisImage at h
  rcases hbinders : axisBinders axis with _ | ⟨b, _ | ⟨b', rest⟩⟩
  · rw [hbinders] at h
    obtain ⟨found, hfound, h⟩ := Option.bind_eq_some_iff.1 h
    cases h
    have hvalue : ∀ p, axis.form.value p = axis.form.constant := fun p => by
      rw [value_eq, hbinders]
      simp
    refine hiff ⟨?_, ?_⟩
    · rintro ⟨part, hpart, hx⟩
      obtain ⟨offsets, hoffsets, himage⟩ := mapM_mem hfound part hpart
      obtain ⟨o, ho, rfl⟩ := (mem_affineImage himage).1 hx
      refine ⟨fun _ => 0, ?_, offsets, hoffsets, o, ho, ?_⟩
      · rw [hbinders]
        intro binder hb
        cases hb
      · rw [hvalue]
        ring
    · rintro ⟨p, -, offsets, hoffsets, o, ho, rfl⟩
      obtain ⟨part, hpart, himage⟩ := mapM_forall hfound offsets hoffsets
      refine ⟨part, hpart, (mem_affineImage himage).2 ⟨o, ho, ?_⟩⟩
      rw [hvalue]
      ring
  · rw [hbinders] at h
    obtain ⟨values, hvalues, h⟩ := Option.bind_eq_some_iff.1 h
    obtain ⟨base, hbase, h⟩ := Option.bind_eq_some_iff.1 h
    obtain ⟨found, hfound, h⟩ := Option.bind_eq_some_iff.1 h
    cases h
    refine hiff (anyHas_shifted (fun y => ?_) hfound x)
    rw [mem_affineImage hbase, hbinders]
    have hvalue : ∀ p, axis.form.value p = axis.form.scale b * p b + axis.form.constant := fun p => by
      rw [value_eq, hbinders]
      simp [add_comm]
    constructor
    · rintro ⟨v, hv, rfl⟩
      refine ⟨fun _ => v, fun binder hb => ?_, (hvalue fun _ => v).symm⟩
      rw [List.mem_singleton.1 hb]
      exact ⟨values, hvalues, hv⟩
    · rintro ⟨p, hp, rfl⟩
      obtain ⟨values', hvalues', hmem⟩ := hp b (List.mem_singleton_self b)
      cases hvalues.symm.trans hvalues'
      exact ⟨p b, hmem, hvalue p⟩
  · rw [hbinders] at h hnodup
    obtain ⟨tiled, htiled, h⟩ := Option.bind_eq_some_iff.1 h
    cases tiled with
    | some sum =>
      obtain ⟨base, hbase, h⟩ := Option.bind_eq_some_iff.1 h
      obtain ⟨found, hfound, h⟩ := Option.bind_eq_some_iff.1 h
      cases h
      refine hiff (anyHas_shifted (fun y => ?_) hfound x)
      rw [mem_affineImage hbase, hbinders]
      constructor
      · rintro ⟨v, hv, rfl⟩
        obtain ⟨p, hp, rfl⟩ := (tiledSum_spec htiled hnodup v).1 hv
        exact ⟨p, hp, by rw [value_eq, hbinders]; ring⟩
      · rintro ⟨p, hp, rfl⟩
        exact ⟨_, (tiledSum_spec htiled hnodup _).2 ⟨p, hp, rfl⟩, by rw [value_eq, hbinders]; ring⟩
    | none =>
      obtain ⟨bounds, hbounds, h⟩ := Option.bind_eq_some_iff.1 h
      cases bounds with
      | none =>
        cases h
        refine hiff (iff_of_false ?_ ?_)
        · rw [anyHas_singleton]
          exact not_mem_empty
        · rintro ⟨p, hp, -⟩
          rw [hbinders] at hp
          obtain ⟨lower, upper, hsome, -⟩ := hullBounds_spec hbounds hp
          cases hsome
      | some bounds =>
        obtain ⟨lower, upper⟩ := bounds
        obtain ⟨found, hfound, h⟩ := Option.bind_eq_some_iff.1 h
        cases h
        refine ⟨?_, fun hexact => absurd hexact Bool.false_ne_true⟩
        rintro ⟨p, hp, offsets, hoffsets, o, ho, rfl⟩
        rw [hbinders] at hp
        obtain ⟨lower', upper', hsome, hle, hge⟩ := hullBounds_spec hbounds hp
        cases hsome
        obtain ⟨result, hresult, hrange⟩ := mapM_forall hfound offsets hoffsets
        have hcount : offsets.count ≠ 0 := exists_mem_iff.1 ⟨o, ho⟩
        unfold hullRange at hrange
        rw [show offsets.firstOf = some offsets.first from if_neg hcount,
          show offsets.lastOf = some (offsets.first + (offsets.count - 1) * offsets.step) from if_neg hcount] at hrange
        obtain ⟨least, hleast, hrange⟩ := Option.bind_eq_some_iff.1 hrange
        obtain ⟨most, hmost, hrange⟩ := Option.bind_eq_some_iff.1 hrange
        obtain ⟨part, hpart, rfl⟩ := Option.map_eq_some_iff.1 hrange
        refine ⟨part, List.reduceOption_mem_iff.2 hresult, mem_range_one hpart ?_ ?_⟩
        · rw [checkedI64_value hleast, value_eq, hbinders]
          have := first_le ho
          linarith
        · rw [checkedI64_value hmost, value_eq, hbinders]
          have := le_last ho
          linarith

/-! ## All axes -/

theorem mapM_forall₂ {α β : Type} {f : α → Option β} {l : List α} {bs : List β} (hbs : l.mapM f = some bs) :
    List.Forall₂ (fun a b => f a = some b) l bs := by
  induction l generalizing bs with
  | nil =>
    cases hbs
    exact .nil
  | cons a l ih =>
    rw [List.mapM_cons] at hbs
    obtain ⟨b, hb, hbs⟩ := Option.bind_eq_some_iff.1 hbs
    obtain ⟨cs, hcs, hbs⟩ := Option.bind_eq_some_iff.1 hbs
    cases hbs
    exact .cons hb (ih hcs)

theorem forall₂_concat {α β : Type} {R : α → β → Prop} {xs : List α} {x : α} {ys : List β} :
    List.Forall₂ R (xs ++ [x]) ys ↔ ∃ zs z, ys = zs ++ [z] ∧ List.Forall₂ R xs zs ∧ R x z := by
  induction xs generalizing ys with
  | nil =>
    constructor
    · rintro (_ | ⟨hz, hrest⟩)
      cases hrest
      exact ⟨[], _, rfl, .nil, hz⟩
    · rintro ⟨zs, z, rfl, hzs, hz⟩
      cases hzs
      exact .cons hz .nil
  | cons x' xs ih =>
    constructor
    · rintro (_ | ⟨hfirst, hrest⟩)
      obtain ⟨zs, z, rfl, hzs, hz⟩ := ih.1 hrest
      exact ⟨_ :: zs, z, rfl, .cons hfirst hzs, hz⟩
    · rintro ⟨zs, z, rfl, hzs, hz⟩
      cases hzs with
      | cons hfirst hrest => exact .cons hfirst (ih.2 ⟨_, z, rfl, hrest, hz⟩)

theorem exists_forall₂ {α β : Type} {R : α → β → Prop} {xs : List α} (h : ∀ x ∈ xs, ∃ y, R x y) :
    ∃ ys, List.Forall₂ R xs ys := by
  induction xs with
  | nil => exact ⟨[], .nil⟩
  | cons x xs ih =>
    obtain ⟨y, hy⟩ := h x List.mem_cons_self
    obtain ⟨ys, hys⟩ := ih fun z hz => h z (List.mem_cons_of_mem x hz)
    exact ⟨y :: ys, .cons hy hys⟩

theorem has_product {perAxis : List (List Progression)} {index : List Int} : IndexUnion.Has (product perAxis) index ↔
    List.Forall₂ AnyHas perAxis index := by
  unfold product
  induction perAxis using List.reverseRecOn generalizing index with
  | nil =>
    constructor
    · rintro ⟨box, hbox, hindex⟩
      rw [List.foldl_nil, List.mem_singleton] at hbox
      subst hbox
      cases hindex
      exact .nil
    · intro h
      cases h
      exact ⟨[], List.mem_singleton_self _, .nil⟩
  | append_singleton perAxis parts ih =>
    rw [List.foldl_append, List.foldl_cons, List.foldl_nil, forall₂_concat]
    constructor
    · rintro ⟨box, hbox, hindex⟩
      obtain ⟨pre, hpre, hbox⟩ := List.mem_flatMap.1 hbox
      obtain ⟨part, hpart, rfl⟩ := List.mem_map.1 hbox
      obtain ⟨zs, z, rfl, hzs, hz⟩ := forall₂_concat.1 hindex
      exact ⟨zs, z, rfl, ih.1 ⟨pre, hpre, hzs⟩, part, hpart, hz⟩
    · rintro ⟨zs, z, rfl, hzs, part, hpart, hz⟩
      obtain ⟨pre, hpre, hpreZs⟩ := ih.2 hzs
      exact ⟨pre ++ [part], List.mem_flatMap.2 ⟨pre, hpre, List.mem_map.2 ⟨part, hpart, rfl⟩⟩,
        forall₂_concat.2 ⟨zs, z, rfl, hpreZs, hz⟩⟩

theorem has_of {boxes : List IndexBox} {index : List Int} :
    IndexUnion.Has (IndexUnion.of boxes) index ↔ IndexUnion.Has boxes index := by
  constructor
  · rintro ⟨box, hbox, hindex⟩
    exact ⟨box, (List.mem_filter.1 hbox).1, hindex⟩
  · rintro ⟨box, hbox, hindex⟩
    refine ⟨box, List.mem_filter.2 ⟨hbox, ?_⟩, hindex⟩
    rw [Bool.not_eq_true', List.any_eq_false]
    intro values hvalues hcount
    obtain ⟨x, -, hx⟩ := forall₂_mem_left hindex hvalues
    exact not_mem_of_count (of_decide_eq_true hcount) hx

theorem repeats_eq_false {binders seen : List Nat} (h : repeats binders seen = false) :
    binders.Nodup ∧ ∀ binder ∈ binders, binder ∉ seen := by
  induction binders generalizing seen with
  | nil => exact ⟨List.nodup_nil, by simp⟩
  | cons binder rest ih =>
    rw [repeats] at h
    split_ifs at h with hseen
    obtain ⟨hnodup, hfresh⟩ := ih h
    refine ⟨List.nodup_cons.2 ⟨fun hmem => hfresh binder hmem List.mem_cons_self, hnodup⟩, fun b hb => ?_⟩
    rcases List.mem_cons.1 hb with rfl | hb
    · exact hseen
    · exact fun hmem => hfresh b hb (List.mem_cons_of_mem binder hmem)

theorem names_of_forall₂ {axes : List IndexAxis} {region : IndexBox} {index : List Int}
    (hregion : ∀ values ∈ region, values.count ≠ 0) (hnodup : (axes.flatMap axisBinders).Nodup)
    (h : List.Forall₂ (fun axis x => axis.Has region x) axes index) : Names axes region index := by
  induction h with
  | nil =>
    refine ⟨fun binder => ((region[binder]?).map (·.first)).getD 0, fun binder values hvalues => ?_, .nil⟩
    simp only [hvalues, Option.map_some, Option.getD_some]
    exact first_mem (hregion values (List.mem_of_getElem? hvalues))
  | @cons axis x axes index hx _ ih =>
    rw [List.flatMap_cons, List.nodup_append] at hnodup
    obtain ⟨-, hrest, hdisjoint⟩ := hnodup
    obtain ⟨p, hp, hnamed⟩ := hx
    obtain ⟨p', hp', hindex⟩ := ih hrest
    -- the binders of the first axis from one point, the others from another
    refine ⟨fun binder => if binder ∈ axisBinders axis then p binder else p' binder, fun binder values hvalues => ?_,
      .cons (NamedAt.congr (fun binder hb => (if_pos hb).symm) hnamed) ?_⟩
    · by_cases hb : binder ∈ axisBinders axis
      · obtain ⟨values', hvalues', hmem⟩ := hp binder hb
        cases hvalues.symm.trans hvalues'
        simpa only [if_pos hb] using hmem
      · simpa only [if_neg hb] using hp' binder values hvalues
    · refine List.forall₂_iff_get.2 ⟨hindex.length_eq, fun i hi hi' => ?_⟩
      refine NamedAt.congr (fun binder hb => ?_) ((List.forall₂_iff_get.1 hindex).2 i hi hi')
      refine (if_neg fun hmem => ?_).symm
      exact hdisjoint binder hmem binder (List.mem_flatMap.2 ⟨_, List.get_mem _ _, hb⟩) rfl

theorem exists_has {axis : IndexAxis} {region : IndexBox}
    (hbinders : ∀ binder ∈ axisBinders axis, ∃ values, region[binder]? = some values)
    (h : ¬ axis.NamesNothing region) : ∃ x, axis.Has region x := by
  rw [IndexAxis.NamesNothing, not_or] at h
  obtain ⟨hoffsets, hvalues⟩ := h
  push Not at hoffsets hvalues
  obtain ⟨offsets, hmem, hcount⟩ := hoffsets
  refine ⟨_, fun binder => ((region[binder]?).map (·.first)).getD 0, fun binder hb => ?_, offsets, hmem, offsets.first,
    first_mem hcount, rfl⟩
  obtain ⟨values, hregion⟩ := hbinders binder hb
  refine ⟨values, hregion, ?_⟩
  simp only [hregion, Option.map_some, Option.getD_some]
  exact first_mem (hvalues binder hb values hregion)

theorem not_has_of_namesNothing {axis : IndexAxis} {region : IndexBox} (h : axis.NamesNothing region) (x : Int) :
    ¬ axis.Has region x := by
  rintro ⟨p, hp, offsets, hoffsets, o, ho, rfl⟩
  rcases h with hempty | ⟨binder, hb, values, hregion, hcount⟩
  · exact not_mem_of_count (hempty offsets hoffsets) ho
  · obtain ⟨values', hregion', hmem⟩ := hp binder hb
    cases hregion.symm.trans hregion'
    exact not_mem_of_count hcount hmem

/-- An answer is no less than what the axes name. An exact one is that set if and
only if every binder has values or some axis names nothing. -/
theorem image_exact {axes : List IndexAxis} {region : IndexBox} {answer : SetAnswer} (h : image axes region = some answer) :
    match answer with
    | .exact set => (∀ index, set.Has index ↔ Names axes region index) ↔
        (∀ values ∈ region, values.count ≠ 0) ∨ ∃ axis ∈ axes, axis.NamesNothing region
    | .superset set => ∀ index, Names axes region index → set.Has index := by
  unfold image at h
  obtain ⟨images, himages, h⟩ := Option.bind_eq_some_iff.1 h
  have hforall := mapM_forall₂ himages
  have hbinders : ∀ axis ∈ axes, ∀ binder ∈ axisBinders axis, ∃ values, region[binder]? = some values := by
    intro axis haxis
    obtain ⟨result, -, hresult⟩ := mapM_forall himages axis haxis
    exact axisImage_binders hresult
  have hnames : ∀ index, Names axes region index → List.Forall₂ (fun axis x => axis.Has region x) axes index := by
    rintro index ⟨p, hp, hindex⟩
    refine List.forall₂_iff_get.2 ⟨hindex.length_eq, fun i hi hi' => ⟨p, fun binder hb => ?_, ?_⟩⟩
    · obtain ⟨values, hvalues⟩ := hbinders _ (List.get_mem _ _) binder hb
      exact ⟨values, hvalues, hp binder values hvalues⟩
    · exact (List.forall₂_iff_get.1 hindex).2 i hi hi'
  -- the set against the elements of each axis
  have hset : ∀ index, IndexUnion.Has (IndexUnion.of (product (images.map (·.1)))) index ↔
      List.Forall₂ (fun image x => AnyHas image.1 x) images index := fun index => by
    rw [has_of, has_product, List.forall₂_map_left_iff]
  have hbound : ∀ index, List.Forall₂ (fun axis x => axis.Has region x) axes index →
      List.Forall₂ (fun image x => AnyHas image.1 x) images index := by
    intro index hindex
    refine List.forall₂_iff_get.2 ⟨hforall.length_eq.symm.trans hindex.length_eq, fun i hi hi' => ?_⟩
    have hi₀ : i < axes.length := hforall.length_eq ▸ hi
    exact (axisImage_spec ((List.forall₂_iff_get.1 hforall).2 i hi₀ hi) _).1
      ((List.forall₂_iff_get.1 hindex).2 i hi₀ hi')
  by_cases hexact : (!binderRepeats axes && images.all (·.2)) = true
  · simp only [hexact, if_true] at h
    cases h
    simp only
    obtain ⟨hrepeats, hall⟩ := Bool.and_eq_true_iff.1 hexact
    have hnodup := (repeats_eq_false (Bool.not_eq_true' _ ▸ hrepeats)).1
    have hiff : ∀ index, IndexUnion.Has (IndexUnion.of (product (images.map (·.1)))) index ↔
        List.Forall₂ (fun axis x => axis.Has region x) axes index := by
      intro index
      rw [hset]
      refine ⟨fun hindex => ?_, hbound index⟩
      refine List.forall₂_iff_get.2 ⟨hforall.length_eq.trans hindex.length_eq, fun i hi hi' => ?_⟩
      have hi₀ : i < images.length := hforall.length_eq ▸ hi
      exact (axisImage_spec ((List.forall₂_iff_get.1 hforall).2 i hi hi₀) _).2
        (List.all_eq_true.1 hall _ (List.get_mem _ _)) ((List.forall₂_iff_get.1 hindex).2 i hi₀ hi')
    simp only [hiff]
    constructor
    · intro hprecise
      by_contra hcondition
      rw [not_or] at hcondition
      obtain ⟨hempty, hnothing⟩ := hcondition
      push Not at hempty hnothing
      obtain ⟨values, hvalues, hcount⟩ := hempty
      -- every axis names something, so the answer has a tuple, and no binder value names it
      obtain ⟨index, hindex⟩ := exists_forall₂ fun axis haxis => exists_has (hbinders axis haxis) (hnothing axis haxis)
      obtain ⟨p, hp, -⟩ := (hprecise index).1 hindex
      obtain ⟨binder, hbinder⟩ := List.mem_iff_getElem?.1 hvalues
      exact not_mem_of_count hcount (hp binder values hbinder)
    · rintro (hregion | ⟨axis, haxis, hnothing⟩) index
      · exact ⟨names_of_forall₂ hregion hnodup, hnames index⟩
      · refine iff_of_false (fun hindex => ?_) (fun hnamed => ?_)
        · obtain ⟨x, -, hx⟩ := forall₂_mem_left hindex haxis
          exact not_has_of_namesNothing hnothing x hx
        · obtain ⟨x, -, hx⟩ := forall₂_mem_left (hnames index hnamed) haxis
          exact not_has_of_namesNothing hnothing x hx
  · have hfalse : (!binderRepeats axes && images.all (·.2)) = false := Bool.eq_false_iff.2 hexact
    simp only [hfalse, Bool.false_eq_true, if_false] at h
    cases h
    exact fun index hindex => (hset index).2 (hbound index (hnames index hindex))

/-- `y[i]`. -/
def firstBinderAxis : IndexAxis := ⟨⟨0, [1, 0]⟩, [single 0]⟩

/-- Over `i in 1:3, j in 1:0` nothing is named, and the answer is exactly `y[1:3]`. -/
theorem image_emptyBinder : image [firstBinderAxis] [⟨1, 1, 3, by decide⟩, empty] =
      some (.exact [[⟨1, 1, 3, by decide⟩]]) ∧
    ¬ ∀ index, IndexUnion.Has [[⟨1, 1, 3, by decide⟩]] index ↔
      Names [firstBinderAxis] [⟨1, 1, 3, by decide⟩, empty] index := by
  refine ⟨by decide, fun h => ?_⟩
  have hone : IndexUnion.Has [[⟨1, 1, 3, by decide⟩]] [1] :=
    ⟨_, List.mem_singleton_self _, .cons ⟨0, by decide, by decide⟩ .nil⟩
  obtain ⟨p, hp, -⟩ := (h [1]).1 hone
  exact not_mem_empty (hp 1 empty rfl)

/-- `y[2*i - 1 : 2*i, 5 - j]` over `i in 1:3, j in 1:2`. -/
theorem image_block :
    image [⟨⟨-1, [2, 0]⟩, [⟨0, 1, 2, by decide⟩]⟩, ⟨⟨5, [0, -1]⟩, [single 0]⟩]
      [⟨1, 1, 3, by decide⟩, ⟨1, 1, 2, by decide⟩] =
      some (.exact [[⟨1, 1, 6, by decide⟩, ⟨3, 1, 2, by decide⟩]]) ∧
    ∀ index, IndexUnion.Has [[⟨1, 1, 6, by decide⟩, ⟨3, 1, 2, by decide⟩]] index ↔
      Names [⟨⟨-1, [2, 0]⟩, [⟨0, 1, 2, by decide⟩]⟩, ⟨⟨5, [0, -1]⟩, [single 0]⟩]
        [⟨1, 1, 3, by decide⟩, ⟨1, 1, 2, by decide⟩] index := by
  have himage : image [⟨⟨-1, [2, 0]⟩, [⟨0, 1, 2, by decide⟩]⟩, ⟨⟨5, [0, -1]⟩, [single 0]⟩]
      [⟨1, 1, 3, by decide⟩, ⟨1, 1, 2, by decide⟩] =
      some (.exact [[⟨1, 1, 6, by decide⟩, ⟨3, 1, 2, by decide⟩]]) := by decide
  exact ⟨himage, (image_exact himage).2 (.inl (by decide))⟩

end Rumoca.Core
