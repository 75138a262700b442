import Rumoca.Solve.RegisterLayout
/-!
# Register layouts keep programs

The components of a layout cover what the operations name, components that
live at one time are placed apart, and a program moved by the layout stores the
same outputs.
-/

namespace Rumoca.Solve

open Rumoca.Lib

variable {F : Type}

namespace RegisterLayout

/-! ## Merging -/

/-- The component holds the constraint: its registers and its life. -/
structure Holds (component constraint : Component) : Prop where
  start_le : component.start ≤ constraint.start
  le_stop : constraint.stop ≤ component.stop
  first_le : component.first ≤ constraint.first
  le_last : constraint.last ≤ component.last

/-- The components that hold the constraints merged so far. -/
structure Merged (merged components : List Component) : Prop where
  nonempty : ∀ component ∈ components, component.start < component.stop
  apart : components.Pairwise fun component other => component.stop ≤ other.start
  holds : ∀ constraint ∈ merged, ∃ component ∈ components, Holds component constraint
  start : ∀ component ∈ components, ∃ constraint ∈ merged, component.start = constraint.start
  stop : ∀ component ∈ components, ∃ constraint ∈ merged, component.stop = constraint.stop

theorem Merged.snoc {merged components : List Component} (h : Merged merged components) {constraint : Component}
    (hne : constraint.start < constraint.stop) (hle : ∀ other ∈ merged, other.start ≤ constraint.start) :
    Merged (merged ++ [constraint]) (mergeConstraint components constraint) := by
  have hfresh : (∀ component ∈ components, component.stop ≤ constraint.start) →
      Merged (merged ++ [constraint]) (components ++ [constraint]) := by
    intro hbefore
    refine ⟨?_, ?_, ?_, ?_, ?_⟩
    · intro component hc
      rcases List.mem_append.1 hc with hc | hc
      · exact h.nonempty component hc
      · exact List.mem_singleton.1 hc ▸ hne
    · refine List.pairwise_append.2 ⟨h.apart, List.pairwise_singleton .., fun component hc other ho => ?_⟩
      exact List.mem_singleton.1 ho ▸ hbefore component hc
    · intro other ho
      rcases List.mem_append.1 ho with ho | ho
      · obtain ⟨component, hc, hholds⟩ := h.holds other ho
        exact ⟨component, List.mem_append_left _ hc, hholds⟩
      · obtain rfl := List.mem_singleton.1 ho
        exact ⟨other, List.mem_append_right _ (List.mem_singleton_self _), le_refl _, le_refl _, le_refl _, le_refl _⟩
    · intro component hc
      rcases List.mem_append.1 hc with hc | hc
      · obtain ⟨other, ho, hs⟩ := h.start component hc
        exact ⟨other, List.mem_append_left _ ho, hs⟩
      · exact ⟨constraint, List.mem_append_right _ (List.mem_singleton_self _), by rw [List.mem_singleton.1 hc]⟩
    · intro component hc
      rcases List.mem_append.1 hc with hc | hc
      · obtain ⟨other, ho, hs⟩ := h.stop component hc
        exact ⟨other, List.mem_append_left _ ho, hs⟩
      · exact ⟨constraint, List.mem_append_right _ (List.mem_singleton_self _), by rw [List.mem_singleton.1 hc]⟩
  unfold mergeConstraint
  cases hl : components.getLast? with
  | none =>
    rw [List.getLast?_eq_none_iff] at hl
    exact hfresh (by simp [hl])
  | some previous =>
    obtain ⟨init, rfl⟩ : ∃ init, components = init ++ [previous] :=
      ⟨components.dropLast, (List.dropLast_append_getLast? previous hl).symm⟩
    obtain ⟨hinit, -, hlast⟩ := List.pairwise_append.1 h.apart
    have hprevious : previous ∈ init ++ [previous] := by simp
    by_cases hover : constraint.start < previous.stop
    · simp only [hover, if_true, List.dropLast_concat]
      obtain ⟨first, hfirst, hstart⟩ := h.start previous hprevious
      have hle' : previous.start ≤ constraint.start := hstart ▸ hle first hfirst
      refine ⟨?_, ?_, ?_, ?_, ?_⟩
      · intro component hc
        rcases List.mem_append.1 hc with hc | hc
        · exact h.nonempty component (List.mem_append_left _ hc)
        · rw [List.mem_singleton.1 hc]
          have := h.nonempty previous hprevious
          simp only
          omega
      · refine List.pairwise_append.2 ⟨hinit, List.pairwise_singleton .., fun component hc other ho => ?_⟩
        rw [List.mem_singleton.1 ho]
        exact hlast component hc previous (by simp)
      · intro other ho
        rcases List.mem_append.1 ho with ho | ho
        · obtain ⟨component, hc, hholds⟩ := h.holds other ho
          rcases List.mem_append.1 hc with hc | hc
          · exact ⟨component, List.mem_append_left _ hc, hholds⟩
          · obtain rfl := List.mem_singleton.1 hc
            exact ⟨_, List.mem_append_right _ (List.mem_singleton_self _), hholds.start_le,
              hholds.le_stop.trans (le_max_left ..), (min_le_left ..).trans hholds.first_le,
              hholds.le_last.trans (le_max_left ..)⟩
        · obtain rfl := List.mem_singleton.1 ho
          exact ⟨_, List.mem_append_right _ (List.mem_singleton_self _), hle', le_max_right .., min_le_right ..,
            le_max_right ..⟩
      · intro component hc
        rcases List.mem_append.1 hc with hc | hc
        · obtain ⟨other, ho, hs⟩ := h.start component (List.mem_append_left _ hc)
          exact ⟨other, List.mem_append_left _ ho, hs⟩
        · exact ⟨first, List.mem_append_left _ hfirst, by rw [List.mem_singleton.1 hc]; exact hstart⟩
      · intro component hc
        rcases List.mem_append.1 hc with hc | hc
        · obtain ⟨other, ho, hs⟩ := h.stop component (List.mem_append_left _ hc)
          exact ⟨other, List.mem_append_left _ ho, hs⟩
        · obtain ⟨other, ho, hs⟩ := h.stop previous hprevious
          rw [List.mem_singleton.1 hc]
          simp only
          rcases le_total previous.stop constraint.stop with hle | hle
          · exact ⟨constraint, List.mem_append_right _ (List.mem_singleton_self _), max_eq_right hle⟩
          · exact ⟨other, List.mem_append_left _ ho, (max_eq_left hle).trans hs⟩
    · simp only [hover, if_false]
      refine hfresh fun component hc => ?_
      rcases List.mem_append.1 hc with hc | hc
      · have h1 := hlast component hc previous (by simp)
        have h2 := h.nonempty previous hprevious
        omega
      · rw [List.mem_singleton.1 hc]
        omega

theorem merged_mergeConstraints {sorted : List Component} (hne : ∀ constraint ∈ sorted, constraint.start < constraint.stop)
    (hsorted : sorted.Pairwise fun constraint other => constraint.start ≤ other.start) :
    Merged sorted (mergeConstraints sorted) := by
  refine foldl_inv Merged (fun pre constraint post components hl h => ?_) ⟨by simp, .nil, by simp, by simp, by simp⟩
  subst hl
  exact h.snoc (hne constraint (by simp)) fun other ho =>
    (List.pairwise_append.1 hsorted).2.2 other ho constraint (by simp)

/-! ## Gaps -/

theorem firstGap_spec {width : Nat} {occupied : List (Nat × Nat)} {physical found limit : Nat}
    (hsorted : occupied.Pairwise fun range other => range.1 ≤ other.1) (hlimit : ∀ range ∈ occupied, range.2 ≤ limit)
    (hle : physical ≤ limit) (h : firstGap width occupied physical = pure found) :
    physical ≤ found ∧ found ≤ limit ∧ ∀ range ∈ occupied, found + width ≤ range.1 ∨ range.2 ≤ found := by
  induction occupied generalizing physical with
  | nil =>
    obtain rfl := pure_injective h
    exact ⟨le_refl _, hle, by simp⟩
  | cons range rest ih =>
    obtain ⟨hrange, hrest⟩ := List.pairwise_cons.1 hsorted
    obtain ⟨stop, hstop, h⟩ := bind_eq_pure h
    obtain rfl := (checkedUsize_eq_some.1 (orError_eq_pure.1 hstop)).1
    by_cases hfits : physical + width ≤ range.1
    · rw [if_pos hfits] at h
      obtain rfl := pure_injective h
      refine ⟨le_refl _, hle, fun other ho => .inl ?_⟩
      rcases List.mem_cons.1 ho with rfl | ho
      · exact hfits
      · exact hfits.trans (hrange other ho)
    · rw [if_neg hfits] at h
      obtain ⟨hge, hfound, hrest⟩ := ih hrest (fun other ho => hlimit other (List.mem_cons_of_mem _ ho))
        (max_le hle (hlimit range List.mem_cons_self)) h
      refine ⟨(le_max_left ..).trans hge, hfound, fun other ho => ?_⟩
      rcases List.mem_cons.1 ho with rfl | ho
      · exact .inr ((le_max_right ..).trans hge)
      · exact hrest other ho

/-! ## Allocation -/

def LiveTogether (component other : Component) : Prop :=
  component.first ≤ other.last ∧ other.first ≤ component.last

def PlacedApart (component other : Component) : Prop :=
  component.physical + component.width ≤ other.physical ∨ other.physical + other.width ≤ component.physical

theorem occupiedRanges_spec {components : List Component} {placed : List Nat} {current : Component}
    {occupied : List (Nat × Nat)} (h : occupiedRanges components placed current = pure occupied) :
    (∀ index ∈ placed, ∀ other, components[index]? = some other → LiveTogether other current →
      (other.physical, other.physical + other.width) ∈ occupied) ∧
    ∀ range ∈ occupied, ∃ index ∈ placed, ∃ other, components[index]? = some other ∧
      range = (other.physical, other.physical + other.width) := by
  refine foldlM_inv_pure (fun placed (occupied : List (Nat × Nat)) =>
    (∀ index ∈ placed, ∀ other, components[index]? = some other → LiveTogether other current →
      (other.physical, other.physical + other.width) ∈ occupied) ∧
    ∀ range ∈ occupied, ∃ index ∈ placed, ∃ other, components[index]? = some other ∧
      range = (other.physical, other.physical + other.width)) ?_ ⟨by simp, by simp⟩ h
  rintro pre index post occupied occupied' - ⟨htaken, hfrom⟩ hturn
  obtain ⟨other, hother, hturn⟩ := bind_eq_pure hturn
  have hother := orPanic_eq_pure.1 hother
  have hkeep : ∀ range ∈ occupied, ∃ i ∈ pre ++ [index], ∃ other, components[i]? = some other ∧
      range = (other.physical, other.physical + other.width) := by
    intro range hr
    obtain ⟨i, hi, hfound⟩ := hfrom range hr
    exact ⟨i, List.mem_append_left _ hi, hfound⟩
  split at hturn
  · obtain ⟨stop, hstop, hturn⟩ := bind_eq_pure hturn
    obtain rfl := (checkedUsize_eq_some.1 (orError_eq_pure.1 hstop)).1
    obtain rfl := pure_injective hturn
    refine ⟨fun i hi component hc hlive => ?_, fun range hr => ?_⟩
    · rcases List.mem_append.1 hi with hi | hi
      · exact List.mem_append_left _ (htaken i hi component hc hlive)
      · obtain rfl := List.mem_singleton.1 hi
        obtain rfl := Option.some.inj (hother.symm.trans hc)
        exact List.mem_append_right _ (List.mem_singleton_self _)
    · rcases List.mem_append.1 hr with hr | hr
      · exact hkeep range hr
      · exact ⟨index, by simp, other, hother, List.mem_singleton.1 hr⟩
  · rename_i hapart
    obtain rfl := pure_injective hturn
    refine ⟨fun i hi component hc hlive => ?_, hkeep⟩
    rcases List.mem_append.1 hi with hi | hi
    · exact htaken i hi component hc hlive
    · obtain rfl := List.mem_singleton.1 hi
      obtain rfl := Option.some.inj (hother.symm.trans hc)
      exact absurd hlive hapart

/-- The components placed so far, of the components that merging gave. -/
structure Allocated (merged : List Component) (order : List Nat) (s : Allocation) : Prop where
  placed : s.placed = order
  length : s.components.length = merged.length
  same : ∀ (index : Nat) (component : Component), s.components[index]? = some component → ∃ original : Component,
    merged[index]? = some original ∧ component = { original with physical := component.physical }
  apart : ∀ index ∈ order, ∀ other ∈ order, index ≠ other → ∀ a b, s.components[index]? = some a →
    s.components[other]? = some b → LiveTogether a b → PlacedApart a b
  within : ∀ index ∈ order, ∀ component, s.components[index]? = some component →
    component.physical + component.width ≤ s.extent
  extent_le : s.extent ≤ (order.map fun index => (merged[index]?.map Component.width).getD 0).sum

theorem Allocated.snoc {merged : List Component} {order : List Nat} {s s' : Allocation}
    (h : Allocated merged order s) {index : Nat} (hnew : index ∉ order)
    (hturn : allocateComponent s index = pure s') : Allocated merged (order ++ [index]) s' := by
  obtain ⟨current, hcurrent, hturn⟩ := bind_eq_pure hturn
  have hcurrent := orPanic_eq_pure.1 hcurrent
  obtain ⟨occupied, hoccupied, hturn⟩ := bind_eq_pure hturn
  obtain ⟨physical, hphysical, hturn⟩ := bind_eq_pure hturn
  obtain ⟨stop, hstop, hturn⟩ := bind_eq_pure hturn
  obtain rfl := (checkedUsize_eq_some.1 (orError_eq_pure.1 hstop)).1
  obtain rfl := pure_injective hturn
  obtain ⟨htaken, hfrom⟩ := occupiedRanges_spec hoccupied
  rw [h.placed] at htaken hfrom
  have hperm := List.perm_insertionSort (fun range other : Nat × Nat => toLex range ≤ toLex other) occupied
  have hsorted : (occupied.insertionSort fun range other => toLex range ≤ toLex other).Pairwise
      fun range other => range.1 ≤ other.1 :=
    (pairwise_sortByKey (fun range : Nat × Nat => toLex range) occupied).imp fun hle =>
      (Prod.Lex.le_iff.1 hle).elim le_of_lt fun he => he.1.le
  have hlimit : ∀ range ∈ occupied.insertionSort fun range other => toLex range ≤ toLex other, range.2 ≤ s.extent := by
    intro range hr
    obtain ⟨i, hi, other, hother, rfl⟩ := hfrom range (hperm.mem_iff.1 hr)
    exact h.within i hi other hother
  obtain ⟨-, hle, hgap⟩ := firstGap_spec hsorted hlimit (Nat.zero_le _) hphysical
  obtain ⟨original, horiginal, hsame⟩ := h.same index current hcurrent
  have hwidth : current.width = original.width := by rw [hsame]; rfl
  -- the component placed in this turn, and the others as they were
  have hat : ∀ i component, (s.components.set index { current with physical := physical })[i]? = some component →
      (i = index ∧ component = { current with physical := physical }) ∨
        (i ≠ index ∧ s.components[i]? = some component) := by
    intro i component hc
    by_cases hi : i = index
    · subst hi
      rw [List.getElem?_set_self (List.getElem?_eq_some_iff.1 hcurrent).1] at hc
      exact .inl ⟨rfl, (Option.some.inj hc).symm⟩
    · rw [List.getElem?_set_ne (Ne.symm hi)] at hc
      exact .inr ⟨hi, hc⟩
  have hplaced : ∀ i ∈ order, ∀ other, s.components[i]? = some other → LiveTogether other current →
      physical + current.width ≤ other.physical ∨ other.physical + other.width ≤ physical :=
    fun i hi other hother hlive => hgap _ (hperm.mem_iff.2 (htaken i hi other hother hlive))
  refine ⟨by simp [h.placed], by simp [h.length], ?_, ?_, ?_, ?_⟩
  · intro i component hc
    rcases hat i component hc with ⟨rfl, rfl⟩ | ⟨-, hc⟩
    · exact ⟨original, horiginal, by rw [hsame]⟩
    · exact h.same i component hc
  · intro i hi j hj hij a b ha hb hlive
    have hjoin : ∀ k, k ∈ order ++ [index] → k ≠ index → k ∈ order := fun k hk hne =>
      (List.mem_append.1 hk).resolve_right fun hk => hne (List.mem_singleton.1 hk)
    rcases hat i a ha with ⟨rfl, rfl⟩ | ⟨hni, hold⟩
    · rcases hat j b hb with ⟨rfl, -⟩ | ⟨hnj, hold⟩
      · exact absurd rfl hij
      · exact hplaced j (hjoin j hj hnj) b hold ⟨hlive.2, hlive.1⟩
    · rcases hat j b hb with ⟨rfl, rfl⟩ | ⟨hnj, hold'⟩
      · exact (hplaced i (hjoin i hi hni) a hold hlive).symm
      · exact h.apart i (hjoin i hi hni) j (hjoin j hj hnj) hij a b hold hold' hlive
  · intro i hi component hc
    rcases hat i component hc with ⟨rfl, rfl⟩ | ⟨hni, hc⟩
    · exact le_max_right ..
    · have hi : i ∈ order := (List.mem_append.1 hi).resolve_right fun hi => hni (List.mem_singleton.1 hi)
      exact (h.within i hi component hc).trans (le_max_left ..)
  · have hsum := h.extent_le
    simp only [List.map_append, List.map_singleton, List.sum_append, List.sum_singleton, horiginal, Option.map_some,
      Option.getD_some]
    refine max_le (by omega) ?_
    rw [hwidth]
    omega

theorem allocated_allocate {merged : List Component} {s : Allocation} (h : allocate merged = pure s) :
    Allocated merged (allocationOrder merged) s := by
  have hnodup : (allocationOrder merged).Nodup := (List.perm_insertionSort _ _).nodup_iff.2 List.nodup_range
  refine foldlM_inv_pure (Allocated merged) (fun pre index post s s' hl hs hturn => hs.snoc ?_ hturn) ?_ h
  · rw [hl, List.nodup_append] at hnodup
    exact fun hmem => hnodup.2.2 index hmem index (by simp) rfl
  · refine ⟨rfl, rfl, fun index component hc => ⟨component, hc, rfl⟩, by simp, by simp, by simp⟩

theorem mem_allocationOrder {merged : List Component} {index : Nat} :
    index ∈ allocationOrder merged ↔ index < merged.length :=
  (List.perm_insertionSort _ _).mem_iff.trans List.mem_range

theorem sum_width_le {components : List Component} {low limit : Nat}
    (hne : ∀ component ∈ components, component.start < component.stop)
    (happart : components.Pairwise fun component other => component.stop ≤ other.start)
    (hlow : ∀ component ∈ components, low ≤ component.start) (hlimit : ∀ component ∈ components, component.stop ≤ limit)
    (hle : low ≤ limit) : low + (components.map Component.width).sum ≤ limit := by
  induction components generalizing low with
  | nil => simpa using hle
  | cons component rest ih =>
    obtain ⟨hrest, happart⟩ := List.pairwise_cons.1 happart
    have h := ih (fun c hc => hne c (List.mem_cons_of_mem _ hc)) happart hrest
      (fun c hc => hlimit c (List.mem_cons_of_mem _ hc)) (hlimit component List.mem_cons_self)
    have h1 := hne component List.mem_cons_self
    have h2 := hlow component List.mem_cons_self
    rw [List.map_cons, List.sum_cons, Component.width]
    omega

/-! ## The placed components -/

/-- Components that a layout can look registers up in. -/
structure Placement (components : List Component) (extent : Nat) : Prop where
  nonempty : ∀ component ∈ components, component.start < component.stop
  apart : components.Pairwise fun component other => component.stop ≤ other.start
  placed : ∀ component ∈ components, ∀ other ∈ components, component ≠ other → LiveTogether component other →
    PlacedApart component other
  within : ∀ component ∈ components, component.physical + component.width ≤ extent
  extent_le : extent ≤ u32Limit

theorem sum_allocationOrder (merged : List Component) :
    ((allocationOrder merged).map fun index => (merged[index]?.map Component.width).getD 0).sum =
      (merged.map Component.width).sum := by
  have hperm : (allocationOrder merged).Perm (List.range merged.length) := List.perm_insertionSort _ _
  rw [(hperm.map _).sum_eq]
  congr 1
  refine List.ext_getElem (by simp) fun index h h' => ?_
  have hlt : index < merged.length := by simpa using h
  simp [List.getElem?_eq_getElem hlt]

theorem placement_allocate {cs merged : List Component} (hm : Merged cs merged)
    (hlimit : ∀ constraint ∈ cs, constraint.stop ≤ u32Limit) {s : Allocation} (h : allocate merged = pure s) :
    Placement s.components s.extent ∧ ∀ constraint ∈ cs, ∃ component ∈ s.components, Holds component constraint := by
  have ha := allocated_allocate h
  have hsame : s.components.map (fun c => { c with physical := 0 }) = merged.map fun c => { c with physical := 0 } := by
    refine List.ext_getElem? fun index => ?_
    rw [List.getElem?_map, List.getElem?_map]
    cases hc : s.components[index]? with
    | none =>
      have hlen := List.getElem?_eq_none_iff.1 hc
      rw [List.getElem?_eq_none (ha.length ▸ hlen)]
    | some component =>
      obtain ⟨original, horiginal, hsame⟩ := ha.same index component hc
      rw [horiginal, hsame]
      rfl
  have hmerged : ∀ component ∈ s.components, ∃ original ∈ merged,
      component = { original with physical := component.physical } := by
    intro component hc
    obtain ⟨index, hindex⟩ := List.getElem?_of_mem hc
    obtain ⟨original, horiginal, hsame⟩ := ha.same index component hindex
    exact ⟨original, List.mem_of_getElem? horiginal, hsame⟩
  have hstop : ∀ component ∈ merged, component.stop ≤ u32Limit := fun component hc => by
    obtain ⟨constraint, hcon, hs⟩ := hm.stop component hc
    exact hs ▸ hlimit constraint hcon
  refine ⟨⟨?_, ?_, ?_, ?_, ?_⟩, ?_⟩
  · intro component hc
    obtain ⟨original, horiginal, hsame⟩ := hmerged component hc
    rw [hsame]
    exact hm.nonempty original horiginal
  · have hmap : (merged.map fun c => { c with physical := 0 }).Pairwise fun c o : Component => c.stop ≤ o.start :=
      List.pairwise_map.2 hm.apart
    rw [← hsame] at hmap
    exact List.pairwise_map.1 hmap
  · intro component hc other ho hne hlive
    obtain ⟨i, hi⟩ := List.getElem?_of_mem hc
    obtain ⟨j, hj⟩ := List.getElem?_of_mem ho
    have hij : i ≠ j := by
      rintro rfl
      exact hne (Option.some.inj (hi.symm.trans hj))
    have hlt : ∀ {k : Nat} {c : Component}, s.components[k]? = some c → k ∈ allocationOrder merged := fun hk =>
      mem_allocationOrder.2 (ha.length ▸ (List.getElem?_eq_some_iff.1 hk).1)
    exact ha.apart i (hlt hi) j (hlt hj) hij component other hi hj hlive
  · intro component hc
    obtain ⟨i, hi⟩ := List.getElem?_of_mem hc
    exact ha.within i (mem_allocationOrder.2 (ha.length ▸ (List.getElem?_eq_some_iff.1 hi).1)) component hi
  · refine ha.extent_le.trans ?_
    rw [sum_allocationOrder]
    have := sum_width_le hm.nonempty hm.apart (fun _ _ => Nat.zero_le _) hstop (Nat.zero_le _)
    omega
  · intro constraint hcon
    obtain ⟨original, horiginal, hholds⟩ := hm.holds constraint hcon
    obtain ⟨index, hindex⟩ := List.getElem?_of_mem horiginal
    have hlt : index < s.components.length := ha.length ▸ (List.getElem?_eq_some_iff.1 hindex).1
    obtain ⟨original', horiginal', hsame⟩ := ha.same index _ (List.getElem?_eq_getElem hlt)
    obtain rfl := Option.some.inj (hindex.symm.trans horiginal')
    refine ⟨_, List.getElem_mem hlt, ?_⟩
    rw [hsame]
    exact ⟨hholds.start_le, hholds.le_stop, hholds.first_le, hholds.le_last⟩

theorem physical_eq {layout : RegisterLayout} (h : Placement layout.components layout.extent) {component : Component}
    (hc : component ∈ layout.components) {register : Nat} (hge : component.start ≤ register)
    (hlt : register < component.stop) :
    layout.physical register = .ok (component.physical + (register - component.start)) := by
  obtain ⟨before, after, hsplit⟩ := List.append_of_mem hc
  have happart := h.apart
  rw [hsplit] at happart
  obtain ⟨-, hafter, hbefore⟩ := List.pairwise_append.1 happart
  have hbefore' : ∀ other ∈ before ++ [component], decide (other.start ≤ register) = true := by
    intro other ho
    rw [decide_eq_true_iff]
    rcases List.mem_append.1 ho with ho | ho
    · have h1 := hbefore other ho component List.mem_cons_self
      have h2 := h.nonempty other (by rw [hsplit]; exact List.mem_append_left _ ho)
      omega
    · exact List.mem_singleton.1 ho ▸ hge
  have hafter' : ∀ other ∈ after.head?, decide (other.start ≤ register) = false := by
    intro other ho
    have := (List.pairwise_cons.1 hafter).1 other (List.mem_of_mem_head? ho)
    rw [decide_eq_false_iff_not]
    omega
  have hpoint : partitionPoint (fun other => decide (other.start ≤ register)) layout.components = before.length + 1 := by
    rw [hsplit, List.append_cons, partitionPoint_append hbefore', partitionPoint_of_not hafter']
    simp
  have hwithin := h.within component hc
  have hextent := h.extent_le
  have hu32 : component.physical + (register - component.start) < u32Limit := by
    rw [Component.width] at hwithin
    omega
  have hat : layout.components[before.length]? = some component := by simp [hsplit]
  have husize : checkedUsize (component.physical + (register - component.start)) =
      some (component.physical + (register - component.start)) :=
    checkedUsize_eq_some.2 ⟨rfl, hu32.trans (by norm_num [u32Limit, usizeLimit])⟩
  unfold physical
  simp only [hpoint, Nat.le_add_left, if_true, Option.bind_eq_bind, Option.bind_some, Nat.add_sub_cancel, hat, hge, hlt,
    and_self, husize, checkedU32_eq_some.2 ⟨rfl, hu32⟩]

/-! ## What the operations ask for -/

/-- The step that `derive` took at each operation. -/
theorem deriveVersions_at {p rest : List (LinearOp F)} {index : Nat} {s s' : VersionState}
    {operations : List RegisterOperationVersions} (h : Current p index s.inventory)
    (hrest : ∀ i, p[index + i]? = rest[i]?) (hderive : deriveVersions rest index s = some (operations, s'))
    {i : Nat} {op : LinearOp F} {versions : RegisterOperationVersions} (hop : rest[i]? = some op)
    (hversions : operations[i]? = some versions) :
    ∃ t t' : VersionState, Current p (index + i) t.inventory ∧
      captureOperands t.inventory op = some versions.operands ∧
      installDestination op (index + i) t = some (versions.destination, t') := by
  induction rest generalizing index s operations i with
  | nil => cases hop
  | cons first rest ih =>
    rw [deriveVersions] at hderive
    obtain ⟨operands, hcapture, hderive⟩ := Option.bind_eq_some_iff.1 hderive
    obtain ⟨⟨destination, s₁⟩, hinstall, hderive⟩ := Option.bind_eq_some_iff.1 hderive
    obtain ⟨⟨others, s₂⟩, hothers, hderive⟩ := Option.bind_eq_some_iff.1 hderive
    cases hderive
    have hfirst : p[index]? = some first := by simpa using hrest 0
    cases i with
    | zero =>
      cases hop
      cases hversions
      exact ⟨s, s₁, h, hcapture, hinstall⟩
    | succ i =>
      have hrest' : ∀ i, p[index + 1 + i]? = rest[i]? := fun i => by
        have := hrest (i + 1)
        rwa [List.getElem?_cons_succ, show index + (i + 1) = index + 1 + i by omega] at this
      have := ih (h.installDestination hfirst hinstall) hrest' hothers hop hversions
      rwa [show index + 1 + i = index + (i + 1) by omega] at this

def pieceKey (piece : RegisterOperandPiece) : Nat × Nat := (piece.selectionStart, piece.selectionStride)

theorem captureOperands_covers {p : List (LinearOp F)} {index : Nat} {inventory : RegisterVersionInventory Write}
    (h : Current p index inventory) {op : LinearOp F} {operands : List RegisterOperandPiece}
    (hcapture : captureOperands inventory op = some operands) {read : RegisterReadRange}
    (hread : read ∈ recordedRanges op) {term : Nat} (hterm : term < read.count) :
    ∃ piece ∈ operands, pieceKey piece = (read.start, read.stride) ∧
      piece.registers.1 ≤ read.start + term * read.stride ∧ read.start + term * read.stride < piece.registers.2 := by
  unfold captureOperands at hcapture
  obtain ⟨reads, hreads, hcapture⟩ := Option.bind_eq_some_iff.1 hcapture
  obtain ⟨groups, hgroups, hcapture⟩ := Option.bind_eq_some_iff.1 hcapture
  cases hcapture
  obtain ⟨registers, -, rfl⟩ := Option.map_eq_some_iff.1 hreads
  obtain ⟨group, hgroup, hcaptured⟩ := mapM_forall hgroups read hread
  obtain ⟨piece, hpiece, hfacts⟩ := (h.captureRange hcaptured).2 term hterm
  refine ⟨piece, List.mem_flatten.2 ⟨group, hgroup, hpiece⟩, ?_, hfacts⟩
  unfold captureRange at hcaptured
  obtain ⟨view, -, hcaptured⟩ := Option.bind_eq_some_iff.1 hcaptured
  obtain ⟨pieces, hpieces, hcaptured⟩ := Option.bind_eq_some_iff.1 hcaptured
  cases hcaptured
  obtain ⟨⟨low, high, viewed⟩, -, hoperand⟩ := mapM_mem hpieces _ (List.reduceOption_mem_iff.1 hpiece)
  unfold operandPiece at hoperand
  obtain ⟨first, -, hoperand⟩ := Option.map_eq_some_iff.1 hoperand
  split_ifs at hoperand
  cases hoperand
  rfl

/-- The selection covers the piece. -/
structure CoversPiece (entry : Selection) (piece : RegisterOperandPiece) : Prop where
  start_le : entry.start ≤ piece.registers.1
  le_stop : piece.registers.2 ≤ entry.stop
  producer_le : entry.producer ≤ piece.producer

theorem selections_spec (operands : List RegisterOperandPiece) :
    (∀ piece ∈ operands, ∃ entry ∈ selections operands, entry.key = pieceKey piece) ∧
    (∀ entry ∈ selections operands, ∀ piece ∈ operands, pieceKey piece = entry.key → CoversPiece entry piece) ∧
    ∀ entry ∈ selections operands, ∃ piece ∈ operands, entry.stop = piece.registers.2 := by
  have hmem : ∀ entry, entry ∈ selections operands ↔ entry ∈ operands.foldl recordPiece [] :=
    fun entry => (List.perm_insertionSort _ _).mem_iff
  simp only [hmem]
  refine foldl_inv (fun operands (entries : List Selection) =>
    (∀ piece ∈ operands, ∃ entry ∈ entries, entry.key = pieceKey piece) ∧
    (∀ entry ∈ entries, ∀ piece ∈ operands, pieceKey piece = entry.key → CoversPiece entry piece) ∧
    ∀ entry ∈ entries, ∃ piece ∈ operands, entry.stop = piece.registers.2) ?_ ⟨by simp, by simp, by simp⟩
  rintro pre piece post entries - ⟨hkeys, hcovers, hstops⟩
  unfold recordPiece
  by_cases hany : (entries.any fun entry => entry.key = (piece.selectionStart, piece.selectionStride)) = true
  · simp only [hany, if_true]
    have hkey : ∀ entry : Selection, (if entry.key = pieceKey piece then extendSelection entry piece else entry).key =
        entry.key := fun entry => by split <;> rfl
    refine ⟨fun other ho => ?_, fun entry he other ho hkeyed => ?_, fun entry he => ?_⟩
    · have hfound : ∃ entry ∈ entries, entry.key = pieceKey other := by
        rcases List.mem_append.1 ho with ho | ho
        · exact hkeys other ho
        · obtain rfl := List.mem_singleton.1 ho
          obtain ⟨entry, he, hk⟩ := List.any_eq_true.1 hany
          exact ⟨entry, he, of_decide_eq_true hk⟩
      obtain ⟨entry, he, hk⟩ := hfound
      exact ⟨_, List.mem_map_of_mem he, (hkey entry).trans hk⟩
    · obtain ⟨entry, hentry, rfl⟩ := List.mem_map.1 he
      have hk : pieceKey other = entry.key := hkeyed.trans (hkey entry)
      by_cases hsame : entry.key = (piece.selectionStart, piece.selectionStride)
      · rw [if_pos hsame]
        rcases List.mem_append.1 ho with ho | ho
        · obtain ⟨hstart, hstop, hproducer⟩ := hcovers entry hentry other ho hk
          exact ⟨(min_le_left ..).trans hstart, hstop.trans (le_max_left ..), (min_le_left ..).trans hproducer⟩
        · obtain rfl := List.mem_singleton.1 ho
          exact ⟨min_le_right .., le_max_right .., min_le_right ..⟩
      · rw [if_neg hsame]
        rcases List.mem_append.1 ho with ho | ho
        · exact hcovers entry hentry other ho hk
        · obtain rfl := List.mem_singleton.1 ho
          exact absurd hk.symm hsame
    · obtain ⟨entry, hentry, rfl⟩ := List.mem_map.1 he
      obtain ⟨other, ho, hstop⟩ := hstops entry hentry
      by_cases hsame : entry.key = (piece.selectionStart, piece.selectionStride)
      · rw [if_pos hsame]
        rcases le_total entry.stop piece.registers.2 with hle | hle
        · exact ⟨piece, by simp, max_eq_right hle⟩
        · exact ⟨other, List.mem_append_left _ ho, (max_eq_left hle).trans hstop⟩
      · rw [if_neg hsame]
        exact ⟨other, List.mem_append_left _ ho, hstop⟩
  · simp only [hany, Bool.false_eq_true, if_false]
    refine ⟨fun other ho => ?_, fun entry he other ho hkeyed => ?_, fun entry he => ?_⟩
    · rcases List.mem_append.1 ho with ho | ho
      · obtain ⟨entry, he, hk⟩ := hkeys other ho
        exact ⟨entry, List.mem_append_left _ he, hk⟩
      · obtain rfl := List.mem_singleton.1 ho
        exact ⟨_, List.mem_append_right _ (List.mem_singleton_self _), rfl⟩
    · have hfresh : ∀ entry ∈ entries, entry.key ≠ pieceKey piece := fun entry he hk =>
        hany (List.any_eq_true.2 ⟨entry, he, decide_eq_true hk⟩)
      rcases List.mem_append.1 he with hold | hnew
      · rcases List.mem_append.1 ho with ho | ho
        · exact hcovers entry hold other ho hkeyed
        · obtain rfl := List.mem_singleton.1 ho
          exact absurd hkeyed.symm (hfresh entry hold)
      · obtain rfl := List.mem_singleton.1 hnew
        rcases List.mem_append.1 ho with ho | ho
        · obtain ⟨entry, he, hk⟩ := hkeys other ho
          exact absurd (hk.trans hkeyed) (hfresh entry he)
        · obtain rfl := List.mem_singleton.1 ho
          exact ⟨le_refl _, le_refl _, le_refl _⟩
    · rcases List.mem_append.1 he with he | he
      · obtain ⟨other, ho, hstop⟩ := hstops entry he
        exact ⟨other, List.mem_append_left _ ho, hstop⟩
      · exact ⟨piece, by simp, by rw [List.mem_singleton.1 he]⟩

theorem destination_installDestination {op : LinearOp F} {start : Reg} (hstart : op.dstRegister = some start)
    {index : Nat} {s s' : VersionState} {destination : Option (Reg × Nat × Nat)}
    (h : installDestination op index s = some (destination, s')) :
    destination = some (start, s.storageCount, s.storageCount + op.dstRegisterCount) := by
  unfold installDestination at h
  rw [hstart] at h
  obtain ⟨stop, hstop, h⟩ := Option.bind_eq_some_iff.1 h
  obtain rfl := checkedUsize_value hstop
  simp only at h
  split_ifs at h
  · cases h
  · cases h
    rfl

theorem destination_installDestination_none {op : LinearOp F} (hdst : op.dstRegister = none) {index : Nat}
    {s s' : VersionState} {destination : Option (Reg × Nat × Nat)}
    (h : installDestination op index s = some (destination, s')) : destination = none := by
  unfold installDestination at h
  rw [hdst] at h
  cases h
  rfl

theorem destination_lt {op : LinearOp F} (h : op.WellShaped) {r : Nat} (hr : r ∈ op.destination) : r < u32Limit := by
  obtain ⟨start, hdst⟩ : ∃ start : Nat, op.dstRegister = some start := by
    cases hdst : op.dstRegister with
    | none => simp [LinearOp.destination_none hdst] at hr
    | some start => exact ⟨start, rfl⟩
  have hrange : start ≤ r ∧ r < start + op.dstRegisterCount := (LinearOp.mem_destination hdst r).1 hr
  have hlimit : op.dstRegisterCount ≠ 0 ∧ start + (op.dstRegisterCount - 1) < u32Limit := h.destination start hdst
  omega

theorem mem_constraints {versions : RegisterVersionProgram} {constraint : Component} :
    constraint ∈ constraints versions ↔ (∃ entry ∈ versions.operations.zipIdx, constraint ∈ operationConstraints entry) ∧
      constraint.start < constraint.stop := by
  unfold constraints
  rw [(List.perm_insertionSort _ _).mem_iff, List.mem_filter, List.mem_flatMap, decide_eq_true_iff]

theorem constraints_sorted (versions : RegisterVersionProgram) :
    (constraints versions).Pairwise fun constraint other => constraint.start ≤ other.start :=
  (pairwise_sortByKey (fun component : Component => toLex (component.start, component.stop)) _).imp fun hle =>
    (Prod.Lex.le_iff.1 hle).elim le_of_lt fun he => he.1.le

/-- What the constraints of a program hold: destinations as they are written, ranges read from their
latest writers on. -/
structure Constrained (p : List (LinearOp F)) (cs : List Component) : Prop where
  destination : ∀ (i : Nat) (op : LinearOp F), p[i]? = some op → ∀ start : Nat, op.dstRegister = some start →
    ⟨start, start + op.dstRegisterCount, i, i, 0⟩ ∈ cs
  read : ∀ (i : Nat) (op : LinearOp F), p[i]? = some op → ∀ read ∈ recordedRanges op, 0 < read.count →
    ∃ constraint ∈ cs, constraint.last = i ∧ ∀ term < read.count, constraint.start ≤ read.start + term * read.stride ∧
      read.start + term * read.stride < constraint.stop ∧
      ∃ k, LatestWriter p i (read.start + term * read.stride) k ∧ constraint.first ≤ k
  limit : ∀ constraint ∈ cs, constraint.stop ≤ u32Limit

theorem constrained_constraints {p : List (LinearOp F)} {versions : RegisterVersionProgram}
    (h : RegisterVersionProgram.derive p = some versions) : Constrained p (constraints versions) := by
  obtain ⟨hflow, hlength, hnames⟩ := derive_spec h
  have hshape := ((flowValid_iff p).1 hflow).1
  have hstep : ∀ (i : Nat) (op : LinearOp F) (operation : RegisterOperationVersions), p[i]? = some op →
      versions.operations[i]? = some operation → ∃ t t' : VersionState, Current p i t.inventory ∧
        captureOperands t.inventory op = some operation.operands ∧
        installDestination op i t = some (operation.destination, t') := by
    intro i op operation hop hoperation
    unfold RegisterVersionProgram.derive at h
    cases hd : deriveRegisterFlow p with
    | error e => rw [hd] at h; cases h
    | ok count =>
      rw [hd] at h
      obtain ⟨⟨operations, s⟩, hderive, rfl⟩ := Option.map_eq_some_iff.1 h
      simpa using deriveVersions_at (Current.nil p) (by simp) hderive hop hoperation
  have hoperation : ∀ (i : Nat) (op : LinearOp F), p[i]? = some op → ∃ operation,
      versions.operations[i]? = some operation := fun i op hop => by
    have hlt := (List.getElem?_eq_some_iff.1 hop).1
    exact ⟨_, List.getElem?_eq_getElem (hlength ▸ hlt)⟩
  have hmem : ∀ (i : Nat) (operation : RegisterOperationVersions), versions.operations[i]? = some operation →
      (operation, i) ∈ versions.operations.zipIdx := fun i operation ho => by
    obtain ⟨hlt, rfl⟩ := List.getElem?_eq_some_iff.1 ho
    exact List.mk_mem_zipIdx_iff_getElem?.2 ho
  refine ⟨?_, ?_, ?_⟩
  · intro i op hop start hstart
    obtain ⟨operation, ho⟩ := hoperation i op hop
    obtain ⟨t, t', -, -, hinstall⟩ := hstep i op operation hop ho
    have hcount : op.dstRegisterCount ≠ 0 := ((hshape op (List.mem_of_getElem? hop)).destination start hstart).1
    have hdestination := destination_installDestination hstart hinstall
    refine mem_constraints.2 ⟨⟨_, hmem i operation ho, List.mem_append_left _ ?_⟩, ?_⟩
    · simp [hdestination]
    · change start < start + op.dstRegisterCount
      omega
  · intro i op hop read hread hpos
    obtain ⟨operation, ho⟩ := hoperation i op hop
    obtain ⟨t, t', hcurrent, hcapture, -⟩ := hstep i op operation hop ho
    have hcover : ∀ term < read.count, _ := fun term hterm => captureOperands_covers hcurrent hcapture hread hterm
    obtain ⟨hkeys, hcovers, -⟩ := selections_spec operation.operands
    obtain ⟨piece, hpiece, hkey, hlow, hhigh⟩ := hcover 0 hpos
    obtain ⟨entry, he, hentry⟩ := hkeys piece hpiece
    have hselected : ∀ term < read.count, ∃ other ∈ operation.operands, CoversPiece entry other ∧
        other.registers.1 ≤ read.start + term * read.stride ∧ read.start + term * read.stride < other.registers.2 := by
      intro term hterm
      obtain ⟨other, hother, hkey', hfacts⟩ := hcover term hterm
      exact ⟨other, hother, hcovers entry he other hother (hkey'.trans (hkey.symm.trans hentry.symm)), hfacts⟩
    refine ⟨⟨entry.start, entry.stop, entry.producer, i, 0⟩, mem_constraints.2 ⟨⟨_, hmem i operation ho,
      List.mem_append_right _ (List.mem_map.2 ⟨entry, he, rfl⟩)⟩, ?_⟩, rfl, fun term hterm => ?_⟩
    · obtain ⟨hstart, hstop, -⟩ := hcovers entry he piece hpiece hentry.symm
      change entry.start < entry.stop
      omega
    · obtain ⟨other, hother, ⟨hstart, hstop, hproducer⟩, hge, hlt⟩ := hselected term hterm
      exact ⟨hstart.trans hge, hlt.trans_le hstop, _, (hnames i op operation hop ho).latest other hother _ hge hlt,
        hproducer⟩
  · intro constraint hc
    obtain ⟨⟨⟨operation, i⟩, hentry, hc⟩, -⟩ := mem_constraints.1 hc
    have ho := List.mk_mem_zipIdx_iff_getElem?.1 hentry
    obtain ⟨op, hop⟩ : ∃ op, p[i]? = some op := by
      have hlt := (List.getElem?_eq_some_iff.1 ho).1
      exact ⟨_, List.getElem?_eq_getElem (hlength ▸ hlt)⟩
    rcases List.mem_append.1 hc with hc | hc
    · obtain ⟨t, t', -, -, hinstall⟩ := hstep i op operation hop ho
      rcases hdst : op.dstRegister with _ | (start : Nat)
      · rw [destination_installDestination_none hdst hinstall] at hc
        cases hc
      · have hlimit : op.dstRegisterCount ≠ 0 ∧ start + (op.dstRegisterCount - 1) < u32Limit :=
          (hshape op (List.mem_of_getElem? hop)).destination start hdst
        rw [destination_installDestination hdst hinstall] at hc
        obtain rfl := List.mem_singleton.1 hc
        change start + (t.storageCount + op.dstRegisterCount - t.storageCount) ≤ u32Limit
        omega
    · obtain ⟨entry, he, rfl⟩ := List.mem_map.1 hc
      obtain ⟨piece, hpiece, hstop⟩ := (selections_spec operation.operands).2.2 entry he
      obtain ⟨r, hge, hlt⟩ : ∃ r : Nat, piece.registers.1 ≤ r ∧ r < piece.registers.2 := by
        obtain ⟨r, -, hfacts⟩ := (hnames i op operation hop ho).read piece hpiece
        exact ⟨r, hfacts⟩
      obtain ⟨-, ⟨o, hk, hr⟩, -⟩ := (hnames i op operation hop ho).latest piece hpiece (piece.registers.2 - 1)
        (Nat.le_sub_one_of_lt (hge.trans_lt hlt)) (Nat.sub_one_lt_of_lt hlt)
      have hlast : piece.registers.2 - 1 < u32Limit := destination_lt (hshape o (List.mem_of_getElem? hk)) hr
      change entry.stop ≤ u32Limit
      omega

/-! ## The layout of a program -/

/-- A component that is live from operation `first` to operation `last` and holds the register. -/
def Located (layout : RegisterLayout) (r first last : Nat) (component : Component) : Prop :=
  component ∈ layout.components ∧ component.start ≤ r ∧ r < component.stop ∧ component.first ≤ first ∧
    last ≤ component.last

/-- Each range that an operation names lies in one component, which is live when it is written, or from
the latest writers of its registers on. -/
structure Covered (p : List (LinearOp F)) (layout : RegisterLayout) : Prop where
  destination : ∀ (i : Nat) (op : LinearOp F), p[i]? = some op → ∀ start : Nat, op.dstRegister = some start →
    ∃ component, ∀ offset < op.dstRegisterCount, Located layout (start + offset) i i component
  read : ∀ (j : Nat) (op : LinearOp F), p[j]? = some op → ∀ read ∈ recordedRanges op, 0 < read.count →
    ∃ component, ∀ term < read.count, ∃ k, LatestWriter p j (read.start + term * read.stride) k ∧
      Located layout (read.start + term * read.stride) k j component

/-- What `derive` gives: components placed apart that hold what the program asks for. -/
theorem derive_spec {p : List (LinearOp F)} {layout : RegisterLayout} (h : derive p = pure layout) :
    FlowValid p ∧ Placement layout.components layout.extent ∧ Covered p layout := by
  obtain ⟨versions, hversions, h⟩ := bind_eq_pure h
  have hversions := orError_eq_pure.1 hversions
  obtain ⟨allocation, hallocation, h⟩ := bind_eq_pure h
  obtain rfl := pure_injective h
  obtain ⟨hflow, -⟩ := Solve.derive_spec hversions
  have hconstrained := constrained_constraints hversions
  have hmerged := merged_mergeConstraints (fun constraint hc => (mem_constraints.1 hc).2) (constraints_sorted versions)
  obtain ⟨hplacement, hholds⟩ := placement_allocate hmerged hconstrained.limit hallocation
  refine ⟨hflow, hplacement, ?_, ?_⟩
  · intro i op hop start hstart
    obtain ⟨component, hc, hholds⟩ := hholds _ (hconstrained.destination i op hop start hstart)
    refine ⟨component, fun offset ho => ⟨hc, ?_, ?_, hholds.first_le, hholds.le_last⟩⟩
    · exact hholds.start_le.trans (Nat.le_add_right ..)
    · exact (Nat.add_lt_add_left ho start).trans_le hholds.le_stop
  · intro j op hop read hread hpos
    obtain ⟨constraint, hcon, hlast, hterms⟩ := hconstrained.read j op hop read hread hpos
    obtain ⟨component, hc, hholds⟩ := hholds constraint hcon
    refine ⟨component, fun term hterm => ?_⟩
    obtain ⟨hge, hlt, k, hk, hproducer⟩ := hterms term hterm
    exact ⟨k, hk, hc, hholds.start_le.trans hge, hlt.trans_le hholds.le_stop, hholds.first_le.trans hproducer,
      hlast ▸ hholds.le_last⟩

section

variable {p : List (LinearOp F)} {layout : RegisterLayout}

theorem physical_located (hp : Placement layout.components layout.extent) {r first last : Nat} {component : Component}
    (h : Located layout r first last component) :
    layout.physical r = .ok (component.physical + (r - component.start)) ∧
      component.physical + (r - component.start) < layout.extent := by
  obtain ⟨hc, hge, hlt, -⟩ := h
  have hwithin := hp.within component hc
  rw [Component.width] at hwithin
  exact ⟨physical_eq hp hc hge hlt, by omega⟩

theorem physical_ne (hp : Placement layout.components layout.extent) {r w first last index : Nat}
    {component other : Component} (hr : Located layout r first last component)
    (hw : Located layout w index index other) (hfirst : first ≤ index) (hlast : index ≤ last) (hne : w ≠ r) :
    other.physical + (w - other.start) ≠ component.physical + (r - component.start) := by
  obtain ⟨hc, hcr, hrc, hcfirst, hclast⟩ := hr
  obtain ⟨ho, how, hwo, hofirst, holast⟩ := hw
  by_cases hsame : other = component
  · subst hsame
    omega
  · have hlive : LiveTogether other component := ⟨by omega, by omega⟩
    have happart := hp.placed other ho component hc hsame hlive
    unfold PlacedApart Component.width at happart
    omega

theorem physical_add (hp : Placement layout.components layout.extent) {place : Reg → Reg}
    (hplace : ∀ r q, layout.physical r = .ok q → place r = q) {start offset first last first' last' : Nat}
    {component : Component} (hstart : Located layout start first last component)
    (hoffset : Located layout (start + offset) first' last' component) :
    layout.physical (start + offset) = .ok (place start + offset) ∧ place start + offset < layout.extent := by
  have hat : place start = component.physical + (start - component.start) := hplace _ _ (physical_located hp hstart).1
  have hge : component.start ≤ start := hstart.2.1
  have hsum : component.physical + (start + offset - component.start) = place start + offset := by
    rw [hat]
    omega
  have h := physical_located hp hoffset
  rwa [hsum] at h

theorem Covered.located (h : Covered p layout) (hflow : FlowValid p) {j : Nat} {reader : LinearOp F}
    (hreader : p[j]? = some reader) {r : Nat} (hr : r ∈ reader.sources) :
    ∃ component k, LatestWriter p j r k ∧ Located layout r k j component := by
  rw [← reads_of_valid hflow (List.mem_of_getElem? hreader)] at hr
  obtain ⟨read, hread, hr⟩ := List.mem_flatMap.1 hr
  obtain ⟨term, hterm, rfl⟩ := List.mem_map.1 hr
  have hterm := List.mem_range.1 hterm
  obtain ⟨component, hcomponent⟩ := h.read j reader hreader read hread (Nat.zero_lt_of_lt hterm)
  exact ⟨component, hcomponent term hterm⟩

theorem Covered.apart (h : Covered p layout) (hflow : FlowValid p) (hp : Placement layout.components layout.extent)
    {place : Reg → Reg} (hplace : ∀ r q, layout.physical r = .ok q → place r = q) {j : Nat} {reader : LinearOp F}
    (hreader : p[j]? = some reader) {r : Nat} (hr : r ∈ reader.sources) {k : Nat} (hk : LatestWriter p j r k) {i : Nat}
    {op : LinearOp F} (hki : k ≤ i) (hij : i ≤ j) (hop : p[i]? = some op) {w : Nat} (hw : w ∈ op.destination)
    (hne : w ≠ r) : place w ≠ place r := by
  obtain ⟨component, k', hk', hlocated⟩ := h.located hflow hreader hr
  obtain rfl := hk'.unique hk
  obtain ⟨start, hstart⟩ : ∃ start : Nat, op.dstRegister = some start := by
    cases hdst : op.dstRegister with
    | none => simp [LinearOp.destination_none hdst] at hw
    | some start => exact ⟨start, rfl⟩
  obtain ⟨hge, hlt⟩ : start ≤ w ∧ w < start + op.dstRegisterCount := (LinearOp.mem_destination hstart w).1 hw
  obtain ⟨other, hother⟩ := h.destination i op hop start hstart
  have hwritten : Located layout w i i other := by
    have := hother (w - start) (by omega)
    rwa [Nat.add_sub_cancel' hge] at this
  rw [hplace _ _ (physical_located hp hwritten).1, hplace _ _ (physical_located hp hlocated).1]
  exact physical_ne hp hlocated hwritten hki hij hne

end

/-- A program moved by its layout stores the same outputs in the same order. Its
destinations and operand ranges stay ranges inside the extent, and no operation
from the writer of a register up to a reader of it lands on the register. -/
theorem derive_keeps_program {p : List (LinearOp F)} {layout : RegisterLayout} (h : derive p = pure layout)
    {place : Reg → Reg} (hplace : ∀ r q, layout.physical r = .ok q → place r = q) :
    (∀ op ∈ p, ∀ start, op.dstRegister = some start → ∀ offset < op.dstRegisterCount,
      layout.physical (start + offset) = .ok (place start + offset) ∧ place start + offset < layout.extent) ∧
    (∀ op ∈ p, ∀ read ∈ recordedRanges op, ∀ term < read.count,
      layout.physical (read.start + term * read.stride) = .ok (place read.start + term * read.stride) ∧
        place read.start + term * read.stride < layout.extent) ∧
    (∀ (j : Nat) (reader : LinearOp F), p[j]? = some reader → ∀ r ∈ reader.sources, ∀ k, LatestWriter p j r k →
      ∀ (i : Nat) (op : LinearOp F), k ≤ i → i ≤ j → p[i]? = some op → ∀ w ∈ op.destination, w ≠ r →
        place w ≠ place r) ∧
    ∀ {V W : Type} (M : Meaning F V W) (world : W),
      M.execute (p.map (LinearOp.relocate place)) world = M.execute p world := by
  obtain ⟨hflow, hp, hcovered⟩ := derive_spec h
  have hdestination : ∀ op ∈ p, ∀ start, op.dstRegister = some start → ∀ offset < op.dstRegisterCount,
      layout.physical (start + offset) = .ok (place start + offset) ∧ place start + offset < layout.extent := by
    intro op hop start hstart offset ho
    obtain ⟨i, hi⟩ := List.getElem?_of_mem hop
    obtain ⟨component, hlocated⟩ := hcovered.destination i op hi start hstart
    exact physical_add hp hplace (hlocated 0 (Nat.zero_lt_of_lt ho)) (hlocated offset ho)
  have hread : ∀ op ∈ p, ∀ read ∈ recordedRanges op, ∀ term < read.count,
      layout.physical (read.start + term * read.stride) = .ok (place read.start + term * read.stride) ∧
        place read.start + term * read.stride < layout.extent := by
    intro op hop read hread term hterm
    obtain ⟨i, hi⟩ := List.getElem?_of_mem hop
    obtain ⟨component, hlocated⟩ := hcovered.read i op hi read hread (Nat.zero_lt_of_lt hterm)
    obtain ⟨_, -, hfirst⟩ := hlocated 0 (Nat.zero_lt_of_lt hterm)
    obtain ⟨_, -, hlast⟩ := hlocated term hterm
    rw [Nat.zero_mul] at hfirst
    exact physical_add hp hplace hfirst hlast
  refine ⟨hdestination, hread, fun j reader hreader r hr k hk i op hki hij hop w hw hne =>
    hcovered.apart hflow hp hplace hreader hr hk hki hij hop hw hne, fun M world => M.execute_relocate ?_ ?_ world⟩
  · exact fun op hop => ⟨fun start hstart offset ho => hplace _ _ (hdestination op hop start hstart offset ho).1,
      fun read hr term hterm => hplace _ _ (hread op hop read hr term hterm).1⟩
  · refine Accesses.apart_of_forall fun pre op post hpost w hw r hr hne => ?_
    obtain ⟨between, reader, rest, rfl, hr, hbetween⟩ := hr.exists_read
    have hop : p[pre.length]? = some op := by simp [hpost]
    have hreader : p[pre.length + (between.length + 1)]? = some reader := by simp [hpost]
    have hr : r ∈ reader.sources := reads_of_valid hflow (List.mem_of_getElem? hreader) ▸ hr
    obtain ⟨_, k, hk, -⟩ := hcovered.located hflow hreader hr
    -- nothing between the write and the read writes the register, so its latest writer is no later than the write
    have hle : k ≤ pre.length := by
      by_contra hlater
      obtain ⟨offset, rfl⟩ := Nat.exists_eq_add_of_lt (Nat.lt_of_not_le hlater)
      obtain ⟨hlt, ⟨writer, hwriter, hwrites⟩, -⟩ := hk
      have hbetween' : offset < between.length := by omega
      refine hbetween writer ?_ hwrites
      rw [hpost, Nat.add_assoc, List.getElem?_append_right (by omega), Nat.add_sub_cancel_left, List.getElem?_cons_succ,
        List.getElem?_append_left hbetween'] at hwriter
      exact List.mem_of_getElem? hwriter
    exact (hcovered.apart hflow hp hplace hreader hr hk hle (Nat.le_add_right ..) hop hw (Ne.symm hne)).symm

def storedInTurn : List (LinearOp Nat) := [.loadP 5 0, .storeOutput 5, .loadP 7 1, .storeOutput 7]

def storedInTurnLayout : RegisterLayout := ⟨[⟨5, 6, 0, 1, 0⟩, ⟨7, 8, 2, 3, 0⟩], 1⟩

def turns : Meaning Nat Nat Nat where
  run op turn operands :=
    some { written := List.replicate op.destination.length turn, stored := operands, world := turn + 1 }
  run_length op world operands outcome h := by
    obtain rfl := Option.some.inj h
    exact List.length_replicate
  run_relocate place op := by
    have hlength : (op.relocate place).destination.length = op.destination.length := by
      unfold LinearOp.destination
      rw [LinearOp.dstRegister_relocate, LinearOp.dstRegisterCount_relocate]
      cases op.dstRegister <;> simp
    simp only [hlength]

theorem derive_keeps_storedInTurn :
    turns.execute [.loadP 0 0, .storeOutput 0, .loadP 0 1, .storeOutput 0] 0 = turns.execute storedInTurn 0 ∧
      turns.execute storedInTurn 0 = some ([0, 2], 4) := by
  have h : derive storedInTurn = pure storedInTurnLayout := rfl
  have hplace : ∀ r q, storedInTurnLayout.physical r = .ok q →
      (fun r => (storedInTurnLayout.physical r).toOption.getD 0) r = q := fun r q hq => by simp [hq, Except.toOption]
  exact ⟨(derive_keeps_program h hplace).2.2.2 turns 0, rfl⟩

end RegisterLayout

end Rumoca.Solve
