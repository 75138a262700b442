import Rumoca.Lib.GroupedDifferences
import Rumoca.Structural.OffsetsLeast
import Rumoca.Structural.TensorOffsets
/-!
# The owner sweeps reach the least offsets

Every loop of a sweep raises components to values it is asked for (`Raised`), so
a sweep is a pass over the grouped difference constraints of the signature. One
more group of rows settles with each sweep, and there are enough sweeps for all
of them.
-/

namespace Rumoca.Structural

open Rumoca.Lib GroupedConstraints

/-! ## Raising to what is asked -/

section
variable {n : Nat} {v v' v'' : Fin n → Nat} {b : Bool} {R R' : Fin n → Nat → Prop} {s s' : List Nat × Bool}

/-- The state holds the least vector above `v` and the values asked for, and the flag whether it changed. -/
structure Raised (v : Fin n → Nat) (b : Bool) (R : Fin n → Nat → Prop) (v' : Fin n → Nat) (s : List Nat × Bool) :
    Prop where
  values : s.1 = List.ofFn v'
  le : ∀ i, v i ≤ v' i
  asked : ∀ i a, R i a → a ≤ v' i
  least : ∀ u : Fin n → Nat, (∀ i, v i ≤ u i) → (∀ i a, R i a → a ≤ u i) → ∀ i, v' i ≤ u i
  flag : s.2 = true ↔ b = true ∨ v' ≠ v

theorem Raised.refl (v : Fin n → Nat) (b : Bool) : Raised v b (fun _ _ => False) v (List.ofFn v, b) :=
  ⟨rfl, fun _ => le_rfl, fun _ _ h => h.elim, fun _ h _ => h, by simp⟩

theorem Raised.congr (h : Raised v b R v' s) (hasked : ∀ i a, R' i a → a ≤ v' i)
    (hleast : ∀ u : Fin n → Nat, (∀ i, v i ≤ u i) → (∀ i a, R' i a → a ≤ u i) → ∀ i a, R i a → a ≤ u i) :
    Raised v b R' v' s :=
  ⟨h.values, h.le, hasked, fun u hu hR => h.least u hu (hleast u hu hR), h.flag⟩

theorem Raised.trans (h : Raised v b R v' s) (h' : Raised v' s.2 R' v'' s') :
    Raised v b (fun i a => R i a ∨ R' i a) v'' s' := by
  refine ⟨h'.values, fun i => (h.le i).trans (h'.le i), fun i a ha => ?_, fun u hu hR => ?_, ?_⟩
  · rcases ha with ha | ha
    · exact (h.asked i a ha).trans (h'.le i)
    · exact h'.asked i a ha
  · exact h'.least u (h.least u hu fun i a ha => hR i a (.inl ha)) fun i a ha => hR i a (.inr ha)
  · rw [h'.flag, h.flag]
    constructor
    · rintro ((hb | hne) | hne)
      · exact .inl hb
      · exact .inr fun heq => hne (funext fun i => le_antisymm ((h'.le i).trans (congrFun heq i).le) (h.le i))
      · exact .inr fun heq => hne (funext fun i => le_antisymm ((congrFun heq i).le.trans (h.le i)) (h'.le i))
    · rintro (hb | hne)
      · exact .inl (.inl hb)
      · by_cases heq : v'' = v'
        · exact .inl (.inr (heq ▸ hne))
        · exact .inr heq

theorem raised_raiseAt (v : Fin n → Nat) (b : Bool) (index : Fin n) (value : Nat) :
    Raised v b (fun i a => i = index ∧ a = value) (Function.update v index (max (v index) value))
      (raiseAt (List.ofFn v, b) index value) := by
  have hle : ∀ i, v i ≤ Function.update v index (max (v index) value) i := by
    intro i
    by_cases hi : i = index
    · subst hi
      simp
    · rw [Function.update_of_ne hi]
  have hasked : ∀ i a, i = index ∧ a = value → a ≤ Function.update v index (max (v index) value) i := by
    rintro i a ⟨rfl, rfl⟩
    simp
  have hleast : ∀ u : Fin n → Nat, (∀ i, v i ≤ u i) → (∀ i a, i = index ∧ a = value → a ≤ u i) →
      ∀ i, Function.update v index (max (v index) value) i ≤ u i := by
    intro u hu hR i
    by_cases hi : i = index
    · subst hi
      rw [Function.update_self]
      exact max_le (hu i) (hR i value ⟨rfl, rfl⟩)
    · rw [Function.update_of_ne hi]
      exact hu i
  have hget : (List.ofFn v)[(index : Nat)]? = some (v index) := getElem?_ofFn v index
  simp only [raiseAt, hget]
  by_cases hvalue : value ≤ v index
  · have hsame : Function.update v index (max (v index) value) = v := by
      rw [max_eq_left hvalue, Function.update_eq_self]
    rw [if_pos hvalue]
    exact ⟨by rw [hsame], hle, hasked, hleast, by simp [hsame]⟩
  · rw [if_neg hvalue]
    refine ⟨by simp only [set_ofFn, max_eq_right (not_le.1 hvalue).le], hle, hasked, hleast, ?_⟩
    have hne : Function.update v index (max (v index) value) ≠ v := fun heq => by
      have := congrFun heq index
      rw [Function.update_self] at this
      omega
    simp [hne]

theorem Raised.raiseAt (h : Raised v b R v' s) (index : Fin n) (value : Nat) :
    ∃ v'', Raised v b (fun i a => R i a ∨ (i = index ∧ a = value)) v'' (raiseAt s index value) := by
  have hs : s = (List.ofFn v', s.2) := Prod.ext h.values rfl
  have hstep := raised_raiseAt v' s.2 index value
  rw [← hs] at hstep
  exact ⟨_, h.trans hstep⟩

/-! ## Equalising a group -/

theorem mem_slice {group : OwnerRange} (hstop : group.stop ≤ n) {a : Nat} :
    a ∈ group.slice (List.ofFn v) ↔ ∃ i : Fin n, group.Has i ∧ a = v i := by
  unfold OwnerRange.slice OwnerRange.Has
  rw [List.mem_iff_getElem?]
  constructor
  · rintro ⟨k, hk⟩
    obtain ⟨hlt, hk⟩ := List.getElem?_eq_some_iff.1 hk
    rw [List.length_take, List.length_drop, List.length_ofFn] at hlt
    have hi : group.start + k < n := by omega
    refine ⟨⟨group.start + k, hi⟩, ⟨by simp, by simp only; omega⟩, ?_⟩
    rw [List.getElem_take, List.getElem_drop, List.getElem_ofFn] at hk
    exact hk.symm
  · rintro ⟨i, ⟨hstart, hlt⟩, rfl⟩
    refine ⟨i - group.start, ?_⟩
    rw [List.getElem?_take_of_lt (by omega), List.getElem?_drop, Nat.add_sub_cancel' hstart]
    exact getElem?_ofFn v i

theorem equalizeGroup_raised (v : Fin n → Nat) (b : Bool) {group : OwnerRange} (hstop : group.stop ≤ n) :
    ∃ v', Raised v b (fun i a => group.Has i ∧ ∃ i' : Fin n, group.Has i' ∧ a = v i') v'
      (equalizeGroup (List.ofFn v, b) group) := by
  set maximum := ((group.slice (List.ofFn v)).max?).getD 0 with hmaximum
  have hmax : ∀ i : Fin n, group.Has i → (∃ i' : Fin n, group.Has i' ∧ maximum = v i') ∧
      ∀ i' : Fin n, group.Has i' → v i' ≤ maximum := by
    intro i hi
    have hmem : v i ∈ group.slice (List.ofFn v) := (mem_slice hstop).2 ⟨i, hi, rfl⟩
    obtain ⟨a, ha⟩ : ∃ a, (group.slice (List.ofFn v)).max? = some a := by
      cases hcase : (group.slice (List.ofFn v)).max? with
      | none => exact absurd (List.max?_eq_none_iff.1 hcase ▸ hmem) List.not_mem_nil
      | some a => exact ⟨a, rfl⟩
    have heq : maximum = a := by rw [hmaximum, ha]; rfl
    obtain ⟨hin, hge⟩ := List.max?_eq_some_iff.1 ha
    rw [heq]
    exact ⟨(mem_slice hstop).1 hin, fun i' hi' => hge _ ((mem_slice hstop).2 ⟨i', hi', rfl⟩)⟩
  obtain ⟨v', h⟩ := foldl_inv (l := List.range' group.start (group.stop - group.start))
    (f := fun s index => raiseAt s index maximum)
    (fun done s => ∃ v', Raised v b (fun i a => (i : Nat) ∈ done ∧ a = maximum) v' s)
    (fun done index rest s hsplit hinv => by
      obtain ⟨v', h⟩ := hinv
      have hindex : index ∈ List.range' group.start (group.stop - group.start) := by rw [hsplit]; simp
      rw [List.mem_range'_1] at hindex
      obtain ⟨v'', h'⟩ := h.raiseAt ⟨index, by omega⟩ maximum
      refine ⟨v'', h'.congr (fun i a ha => h'.asked i a ?_) fun u _ hR i a ha => hR i a ?_⟩
      · simp only [List.mem_append, List.mem_singleton, Fin.ext_iff] at ha ⊢
        tauto
      · simp only [List.mem_append, List.mem_singleton, Fin.ext_iff] at ha ⊢
        tauto) (s := (List.ofFn v, b))
    ⟨v, (Raised.refl v b).congr (fun i a h => by simp at h) fun _ _ _ _ _ h => h.elim⟩
  have hrange : ∀ i : Fin n, (i : Nat) ∈ List.range' group.start (group.stop - group.start) ↔ group.Has i := by
    intro i
    rw [List.mem_range'_1]
    unfold OwnerRange.Has
    omega
  refine ⟨v', h.congr (fun i a ha => ?_) fun u _ hR i a ha => ?_⟩
  · obtain ⟨hi, i', hi', rfl⟩ := ha
    exact ((hmax i hi).2 i' hi').trans (h.asked i maximum ⟨(hrange i).2 hi, rfl⟩)
  · obtain ⟨hi, rfl⟩ := ha
    rw [hrange] at hi
    obtain ⟨i', hi', heq⟩ := (hmax i hi).1
    exact hR i maximum ⟨hi, i', hi', heq⟩

def AskedWithin (groups : List OwnerRange) (v : Fin n → Nat) (i : Fin n) (a : Nat) : Prop :=
  ∃ group ∈ groups, group.Has i ∧ ∃ i' : Fin n, group.Has i' ∧ a = v i'

theorem equalize_raised (v : Fin n → Nat) (b : Bool) {groups : List OwnerRange}
    (hstop : ∀ group ∈ groups, group.stop ≤ n) (happart : groups.Pairwise fun g h => ∀ i, g.Has i → ¬ h.Has i) :
    ∃ v', Raised v b (AskedWithin groups v) v' (equalize groups (List.ofFn v, b)) := by
  refine foldl_inv (l := groups) (f := equalizeGroup) (fun done s => ∃ v', Raised v b (AskedWithin done v) v' s)
    (fun done group rest s hsplit hinv => ?_) (s := (List.ofFn v, b))
    ⟨v, (Raised.refl v b).congr (fun i a h => by obtain ⟨_, h, -⟩ := h; cases h) fun _ _ _ _ _ h => h.elim⟩
  obtain ⟨v', h⟩ := hinv
  -- the groups before have left this one alone
  have hsame : ∀ i : Fin n, group.Has i → v' i = v i := by
    intro i hi
    refine le_antisymm ?_ (h.le i)
    have hle := h.least (Function.update v' i (v i)) (fun k => ?_) (fun k a hk => ?_) i
    · rwa [Function.update_self] at hle
    · by_cases hki : k = i
      · subst hki
        rw [Function.update_self]
      · rw [Function.update_of_ne hki]
        exact h.le k
    · have hki : k ≠ i := by
        rintro rfl
        obtain ⟨other, hother, hhas, -⟩ := hk
        rw [hsplit, List.pairwise_append] at happart
        exact happart.2.2 other hother group List.mem_cons_self k hhas hi
      rw [Function.update_of_ne hki]
      exact h.asked k a hk
  obtain ⟨v'', h'⟩ := equalizeGroup_raised v' s.2 (hstop group (by rw [hsplit]; simp))
  have hs : s = (List.ofFn v', s.2) := Prod.ext h.values rfl
  rw [← hs] at h'
  have htrans := h.trans h'
  refine ⟨v'', htrans.congr (fun i a ha => htrans.asked i a ?_) fun u _ hR i a ha => hR i a ?_⟩
  · obtain ⟨g, hg, hi, i', hi', rfl⟩ := ha
    rcases List.mem_append.1 hg with hg | hg
    · exact .inl ⟨g, hg, hi, i', hi', rfl⟩
    · obtain rfl := List.mem_singleton.1 hg
      exact .inr ⟨hi, i', hi', (hsame i' hi').symm⟩
  · rcases ha with ⟨g, hg, hi, i', hi', rfl⟩ | ⟨hi, i', hi', rfl⟩
    · exact ⟨g, List.mem_append_left _ hg, hi, i', hi', rfl⟩
    · exact ⟨group, List.mem_append_right _ (List.mem_singleton.2 rfl), hi, i', hi', hsame i' hi'⟩

end

/-! ## The owner of a row or a column -/

def ownerOf (groups : List OwnerRange) (index : Nat) : Nat := groups.findIdx fun group => group.Has index

theorem partitionsFrom_spec {count stop : Nat} {groups : List OwnerRange} (h : partitionsFrom count groups stop = true) :
    (∀ group ∈ groups, stop ≤ group.start ∧ group.stop ≤ count) ∧
      groups.Pairwise (fun g h => ∀ i, g.Has i → ¬ h.Has i) ∧
      ∀ i, stop ≤ i → i < count → ∃ group ∈ groups, group.Has i := by
  induction groups generalizing stop with
  | nil =>
    have hstop : stop = count := by simpa [partitionsFrom] using h
    exact ⟨by simp, List.Pairwise.nil, fun i hi hlt => by omega⟩
  | cons group rest ih =>
    rw [partitionsFrom] at h
    split_ifs at h with hbad
    obtain ⟨hbounds, happart, hcover⟩ := ih h
    refine ⟨fun g hg => ?_, List.pairwise_cons.2 ⟨fun g hg i hi hi' => ?_, happart⟩, fun i hi hlt => ?_⟩
    · rcases List.mem_cons.1 hg with rfl | hg
      · omega
      · have := hbounds g hg
        omega
    · have := hbounds g hg
      unfold OwnerRange.Has at hi hi'
      omega
    · by_cases hin : i < group.stop
      · exact ⟨group, List.mem_cons_self, by omega, hin⟩
      · obtain ⟨g, hg, hhas⟩ := hcover i (by omega) hlt
        exact ⟨g, List.mem_cons_of_mem group hg, hhas⟩

section
variable {n : Nat} {groups : List OwnerRange} (h : partitions groups n = true)
include h

theorem partitions_stop_le : ∀ group ∈ groups, group.stop ≤ n := fun group hgroup =>
  ((partitionsFrom_spec h).1 group hgroup).2

theorem partitions_apart : groups.Pairwise fun g h => ∀ i, g.Has i → ¬ h.Has i := (partitionsFrom_spec h).2.1

theorem ownerOf_lt (i : Fin n) : ownerOf groups i < groups.length := by
  obtain ⟨group, hgroup, hhas⟩ := (partitionsFrom_spec h).2.2 i (Nat.zero_le _) i.2
  exact List.findIdx_lt_length_of_exists ⟨group, hgroup, by simpa using hhas⟩

theorem ownerOf_has (i : Fin n) : (groups.get ⟨ownerOf groups i, ownerOf_lt h i⟩).Has i := by
  have := List.findIdx_getElem (p := fun group : OwnerRange => decide (group.Has i)) (w := ownerOf_lt h i)
  exact of_decide_eq_true this

theorem ownerOf_eq_iff (i i' : Fin n) :
    ownerOf groups i = ownerOf groups i' ↔ ∃ group ∈ groups, group.Has i ∧ group.Has i' := by
  constructor
  · intro heq
    refine ⟨_, List.getElem_mem (ownerOf_lt h i), ownerOf_has h i, ?_⟩
    simp only [heq]
    exact ownerOf_has h i'
  · rintro ⟨group, hgroup, hi, hi'⟩
    have hone : ∀ i : Fin n, group.Has i → ∀ m (hm : m < groups.length), groups[m] = group → ownerOf groups i = m := by
      intro i hi m hm hgroup
      have hapart := List.pairwise_iff_getElem.1 (partitions_apart h)
      rcases lt_trichotomy (ownerOf groups i) m with hlt | heq | hlt
      · exact absurd (hgroup ▸ hi) (hapart _ _ (ownerOf_lt h i) hm hlt i (ownerOf_has h i))
      · exact heq
      · exact absurd (ownerOf_has h i) (hapart _ _ hm (ownerOf_lt h i) hlt i (hgroup ▸ hi))
    obtain ⟨m, hm, heq⟩ := List.mem_iff_getElem.1 hgroup
    rw [hone i hi m hm heq, hone i' hi' m hm heq]

end

/-! ## One sweep -/

section
variable {rows : List (List SignatureEntry)} {σ : Equiv.Perm (Fin rows.length)} {invariant : Fin rows.length → Bool}
  {c d d' : Fin rows.length → Nat} {b : Bool} {R : Fin rows.length → Nat → Prop} {s : List Nat × Bool}

/-- An order that does not fit a `u32` is asked of a column. -/
def Overflows (rows : List (List SignatureEntry)) (invariant : Fin rows.length → Bool) (c : Fin rows.length → Nat) :
    Prop :=
  ∃ i j : Fin rows.length, SignatureEdge rows i j ∧ invariant j = false ∧ u32Limit ≤ c i + signatureOrder rows i j

def AskedBy (invariant : Fin rows.length → Bool) (c : Fin rows.length → Nat) (placed : Nat → SignatureEntry → Prop)
    (j : Fin rows.length) (a : Nat) : Prop :=
  ∃ i : Fin rows.length, ∃ entry, placed i entry ∧ entry.column = j ∧ invariant j = false ∧ a = c i + entry.order

theorem relaxOrder_raised (hsig : Signature rows rows.length) {row : Fin rows.length} {entry : SignatureEntry}
    (he : Assignment.Entry rows row entry) (h : Raised d b R d' s) :
    Outcome (relaxOrder (List.ofFn c) (List.ofFn invariant) row s entry)
      (fun s' => (∃ d'', Raised d b (fun j a => R j a ∨
        (entry.column = j ∧ invariant j = false ∧ a = c row + entry.order)) d'' s') ∧
        ∀ j : Fin rows.length, entry.column = j → invariant j = false → c row + entry.order < u32Limit)
      (fun _ => Overflows rows invariant c) := by
  let column : Fin rows.length := ⟨entry.column, hsig.column_lt row entry he⟩
  have hinvariant : (List.ofFn invariant)[entry.column]? = some (invariant column) := getElem?_ofFn invariant column
  have htarget : s.1[entry.column]? = some (d' column) := by
    rw [h.values]
    exact getElem?_ofFn d' column
  unfold relaxOrder
  rw [hinvariant, Option.getD_some]
  by_cases hskip : invariant column = true
  · rw [if_pos hskip]
    have hinactive : ∀ j : Fin rows.length, entry.column = j → invariant j ≠ false := by
      intro j hj hfalse
      obtain rfl : column = j := Fin.ext hj
      rw [hskip] at hfalse
      cases hfalse
    refine .pure ⟨⟨d', h.congr (fun j a ha => ?_) fun _ _ hR j a ha => hR j a (.inl ha)⟩,
      fun j hj hfalse => absurd hfalse (hinactive j hj)⟩
    rcases ha with ha | ⟨hj, hfalse, -⟩
    · exact h.asked j a ha
    · exact absurd hfalse (hinactive j hj)
  · rw [if_neg hskip, getElem?_ofFn c row, orPanic_some, pure_bind]
    have hactive : invariant column = false := Bool.eq_false_iff.2 hskip
    cases hvalue : checkedU32 (c row + entry.order) with
    | none =>
      refine .throw ⟨row, column, ⟨entry, he, rfl⟩, hactive, ?_⟩
      rw [signatureOrder_eq hsig he rfl]
      by_contra hlt
      rw [checkedU32_eq_some.2 ⟨rfl, not_le.1 hlt⟩] at hvalue
      cases hvalue
    | some value =>
      obtain ⟨rfl, hfits⟩ := checkedU32_eq_some.1 hvalue
      rw [orError_some, pure_bind, htarget, orError_some, pure_bind]
      obtain ⟨d'', h'⟩ := h.raiseAt column (c row + entry.order)
      refine .pure ⟨⟨d'', h'.congr (fun j a ha => h'.asked j a ?_) fun _ _ hR j a ha => hR j a ?_⟩,
        fun _ _ _ => hfits⟩
      · rcases ha with ha | ⟨hj, -, ha⟩
        · exact .inl ha
        · exact .inr ⟨Fin.ext hj.symm, ha⟩
      · rcases ha with ha | ⟨rfl, ha⟩
        · exact .inl ha
        · exact .inr ⟨rfl, hactive, ha⟩

theorem relaxVariableOrders_raised (hsig : Signature rows rows.length) (c d : Fin rows.length → Nat) (b : Bool) :
    Outcome (relaxVariableOrders (List.ofFn c) rows (List.ofFn invariant) (List.ofFn d, b))
      (fun s => (∃ d', Raised d b (AskedBy invariant c (Assignment.Entry rows)) d' s) ∧
        ∀ j a, AskedBy invariant c (Assignment.Entry rows) j a → a < u32Limit)
      (fun _ => Overflows rows invariant c) := by
  unfold relaxVariableOrders
  refine (Outcome.foldlM (l := rows.zipIdx)
    (fun done s => (∃ d', Raised d b (AskedBy invariant c (Assignment.Placed rows done.length [])) d' s) ∧
      ∀ j a, AskedBy invariant c (Assignment.Placed rows done.length []) j a → a < u32Limit)
    (fun done indexed rest s heq hinv => ?_) ⟨⟨d, ?_⟩, ?_⟩).mono (fun s hs => ?_) fun _ h => h
  · obtain ⟨⟨d₁, h₁⟩, hfits₁⟩ := hinv
    have hget : rows.zipIdx[done.length]? = some indexed := by rw [heq]; simp
    rw [List.getElem?_zipIdx, Option.map_eq_some_iff] at hget
    obtain ⟨entries, hentries, rfl⟩ := hget
    have hk : done.length < rows.length := (List.getElem?_eq_some_iff.1 hentries).1
    have hrow : signatureRow rows done.length = entries := by rw [signatureRow, hentries]; rfl
    rw [Nat.zero_add]
    refine (Outcome.foldlM (l := entries) (Q := fun _ => Overflows rows invariant c)
      (fun passed s => (∃ d', Raised d b (AskedBy invariant c (Assignment.Placed rows done.length passed)) d' s) ∧
        ∀ j a, AskedBy invariant c (Assignment.Placed rows done.length passed) j a → a < u32Limit)
      (fun passed entry left s hsplit hinner => ?_) ⟨⟨d₁, h₁⟩, hfits₁⟩).mono (fun s hs => ?_) fun _ h => h
    · obtain ⟨⟨d₂, h₂⟩, hfits₂⟩ := hinner
      have he : Assignment.Entry rows (⟨done.length, hk⟩ : Fin rows.length) entry := by
        rw [Assignment.Entry, hrow, hsplit]
        simp
      refine (relaxOrder_raised hsig he h₂).mono (fun s hs => ?_) fun _ h => h
      obtain ⟨⟨d₃, h₃⟩, hfits₃⟩ := hs
      have hiff : ∀ j a, AskedBy invariant c (Assignment.Placed rows done.length (passed ++ [entry])) j a ↔
          AskedBy invariant c (Assignment.Placed rows done.length passed) j a ∨
            (entry.column = j ∧ invariant j = false ∧ a = c ⟨done.length, hk⟩ + entry.order) := by
        intro j a
        constructor
        · rintro ⟨i, e, hp, hrest⟩
          rcases hp with hp | ⟨hi, hp⟩
          · exact .inl ⟨i, e, .inl hp, hrest⟩
          · rcases List.mem_append.1 hp with hp | hp
            · exact .inl ⟨i, e, .inr ⟨hi, hp⟩, hrest⟩
            · obtain rfl := List.mem_singleton.1 hp
              obtain rfl : i = ⟨done.length, hk⟩ := Fin.ext hi
              exact .inr hrest
        · rintro (⟨i, e, hp, hrest⟩ | hrest)
          · refine ⟨i, e, hp.imp id fun hp => ⟨hp.1, List.mem_append_left _ hp.2⟩, hrest⟩
          · exact ⟨⟨done.length, hk⟩, entry, .inr ⟨rfl, by simp⟩, hrest⟩
      refine ⟨⟨d₃, h₃.congr (fun j a ha => h₃.asked j a ((hiff j a).1 ha))
        fun _ _ hR j a ha => hR j a ((hiff j a).2 ha)⟩, fun j a ha => ?_⟩
      rcases (hiff j a).1 ha with ha | ⟨hj, hvaries, rfl⟩
      · exact hfits₂ j a ha
      · exact hfits₃ j hj hvaries
    · have hplaced : Assignment.Placed rows (done ++ [(entries, done.length)]).length [] =
          Assignment.Placed rows done.length entries := by
        funext i e
        simp only [Assignment.Placed, List.length_append, List.length_singleton, List.not_mem_nil, and_false, or_false]
        refine propext ⟨fun h => ?_, fun h => ?_⟩
        · by_cases hi : i = done.length
          · exact .inr ⟨hi, by rw [← hrow, ← hi]; exact h.2⟩
          · exact .inl ⟨by omega, h.2⟩
        · rcases h with h | ⟨rfl, h⟩
          · exact ⟨by omega, h.2⟩
          · exact ⟨by omega, by rw [hrow]; exact h⟩
      rw [hplaced]
      exact hs
  · refine (Raised.refl d b).congr (fun j a ha => ?_) fun _ _ _ _ _ h => h.elim
    obtain ⟨i, e, hp, -⟩ := ha
    simp [Assignment.Placed] at hp
  · rintro j a ⟨i, e, hp, -⟩
    simp [Assignment.Placed] at hp
  · obtain ⟨⟨d₁, h₁⟩, hfits₁⟩ := hs
    have hiff : ∀ (i : Fin rows.length) e, Assignment.Placed rows rows.zipIdx.length [] i e ↔
        Assignment.Entry rows i e := by
      intro i e
      have := i.2
      simp only [Assignment.Placed, List.length_zipIdx, List.not_mem_nil, and_false, or_false, Assignment.Entry]
      exact and_iff_right this
    have hasked : ∀ j a, AskedBy invariant c (Assignment.Placed rows rows.zipIdx.length []) j a ↔
        AskedBy invariant c (Assignment.Entry rows) j a := by
      intro j a
      constructor
      · rintro ⟨i, e, hp, hrest⟩
        exact ⟨i, e, (hiff i e).1 hp, hrest⟩
      · rintro ⟨i, e, hp, hrest⟩
        exact ⟨i, e, (hiff i e).2 hp, hrest⟩
    exact ⟨⟨d₁, h₁.congr (fun j a ha => h₁.asked j a ((hasked j a).2 ha)) fun _ _ hR j a ha => hR j a ((hasked j a).1 ha)⟩,
      fun j a ha => hfits₁ j a ((hasked j a).2 ha)⟩

theorem raiseMatched_raised (hsig : Signature rows rows.length) (hσ : ∀ row, SignatureEdge rows row (σ row))
    (hd : ∀ i, signatureOrder rows i (σ i) ≤ d (σ i)) (c : Fin rows.length → Nat) (b : Bool) :
    ∃ c' s, (matchingColumns σ).zipIdx.foldlM (raiseMatched rows (List.ofFn d)) (List.ofFn c, b) = pure s ∧
      Raised c b (fun i a => a = d (σ i) - signatureOrder rows i (σ i)) c' s := by
  obtain ⟨s, hrun, c', h⟩ := foldlM_fallible (l := (matchingColumns σ).zipIdx) (f := raiseMatched rows (List.ofFn d))
    (fun done s => ∃ c', Raised c b
      (fun i a => (i : Nat) < done.length ∧ a = d (σ i) - signatureOrder rows i (σ i)) c' s)
    (fun done indexed rest s heq hinv => by
      obtain ⟨c₁, h₁⟩ := hinv
      have hget : (matchingColumns σ).zipIdx[done.length]? = some indexed := by rw [heq]; simp
      rw [List.getElem?_zipIdx, Option.map_eq_some_iff] at hget
      obtain ⟨column, hcolumn, rfl⟩ := hget
      have hk : done.length < rows.length := by
        have := (List.getElem?_eq_some_iff.1 hcolumn).1
        simpa [matchingColumns] using this
      let row : Fin rows.length := ⟨done.length, hk⟩
      obtain rfl : (σ row : Nat) = column := by
        have := getElem?_ofFn (fun row => (σ row : Nat)) row
        exact Option.some.inj (this.symm.trans hcolumn)
      obtain ⟨entries, entry, hentries, hfind, -, horder⟩ := find?_matched hsig (hσ row)
      have hentries : rows[done.length]? = some entries := hentries
      obtain ⟨c₂, h₂⟩ := h₁.raiseAt row (d (σ row) - signatureOrder rows row (σ row))
      refine ⟨_, ?_, c₂, h₂.congr (fun i a ha => h₂.asked i a ?_) fun _ _ hR i a ha => hR i a ?_⟩
      · have hvalue := getElem?_ofFn d (σ row)
        simp only [raiseMatched, Nat.zero_add, hentries, orPanic_some, pure_bind, hfind, orError_some, hvalue]
        rw [if_pos (by rw [horder]; exact hd row), orError_some, pure_bind, horder]
      · rw [List.length_append, List.length_singleton] at ha
        by_cases hi : (i : Nat) = done.length
        · obtain rfl : i = row := Fin.ext hi
          exact .inr ⟨rfl, ha.2⟩
        · exact .inl ⟨by omega, ha.2⟩
      · rw [List.length_append, List.length_singleton]
        rcases ha with ha | ⟨rfl, ha⟩
        · exact ⟨by omega, ha.2⟩
        · exact ⟨by simp [row], ha⟩) (s := (List.ofFn c, b))
    ⟨c, (Raised.refl c b).congr (fun i a ha => by simp at ha) fun _ _ _ _ _ h => h.elim⟩
  refine ⟨c', s, hrun, h.congr (fun i a ha => h.asked i a ⟨?_, ha⟩) fun _ _ hR i a ha => hR i a ha.2⟩
  simp [matchingColumns]

/-- The constraints on offsets of owners: those of the entries whose columns vary, and those of the matched entries
from below. -/
def ownerConstraints (rows : List (List SignatureEntry)) (σ : Equiv.Perm (Fin rows.length))
    (invariant : Fin rows.length → Bool) (groups : OwnerGroups)
    (start : GroupedValues (Fin rows.length) (Fin rows.length)) :
    GroupedConstraints (Fin rows.length) (Fin rows.length) Nat Nat where
  start := start
  rowOwner i := ownerOf groups.rows i
  columnOwner j := ownerOf groups.columns j
  edge i j w := SignatureEdge rows i j ∧ invariant j = false ∧ w = signatureOrder rows i j
  tie i j w := j = σ i ∧ w = signatureOrder rows i (σ i)

variable {groups : OwnerGroups} {start : GroupedValues (Fin rows.length) (Fin rows.length)}

theorem equalized_eq {n : Nat} {v v' : Fin n → Nat} {b : Bool} {s : List Nat × Bool} {groups : List OwnerRange}
    (h : Raised v b (AskedWithin groups v) v' s) (hgroups : partitions groups n = true) {i i' : Fin n}
    (howner : ownerOf groups i = ownerOf groups i') : v' i ≤ v' i' := by
  obtain ⟨group, hgroup, hi, hi'⟩ := (ownerOf_eq_iff hgroups i i').1 howner
  have hle := h.least (fun k => if group.Has k then min (v' k) (v' i') else v' k) (fun k => ?_) (fun k a hk => ?_) i
  · simp only [if_pos hi] at hle
    exact hle.trans (min_le_right _ _)
  · by_cases hhas : group.Has k
    · simp only [if_pos hhas]
      exact le_min (h.le k) (h.asked i' (v k) ⟨group, hgroup, hi', k, hhas, rfl⟩)
    · simp only [if_neg hhas]
      exact h.le k
  · obtain ⟨other, hother, hk', k', hk'', rfl⟩ := hk
    by_cases hhas : group.Has k
    · simp only [if_pos hhas]
      -- the two groups that hold `k` are one
      have hsame : ownerOf groups k' = ownerOf groups i' :=
        ((ownerOf_eq_iff hgroups k' k).2 ⟨other, hother, hk'', hk'⟩).trans
          ((ownerOf_eq_iff hgroups k i').2 ⟨group, hgroup, hhas, hi'⟩)
      obtain ⟨common, hcommon, hin, hin'⟩ := (ownerOf_eq_iff hgroups k' i').1 hsame
      exact le_min (h.asked k (v k') ⟨other, hother, hk', k', hk'', rfl⟩)
        (h.asked i' (v k') ⟨common, hcommon, hin', k', hin, rfl⟩)
    · simp only [if_neg hhas]
      exact h.asked k (v k') ⟨other, hother, hk', k', hk'', rfl⟩

theorem asked_of_owner {n : Nat} {v : Fin n → Nat} {groups : List OwnerRange} (hgroups : partitions groups n = true)
    {i i' : Fin n} (howner : ownerOf groups i = ownerOf groups i') : AskedWithin groups v i (v i') := by
  obtain ⟨group, hgroup, hi, hi'⟩ := (ownerOf_eq_iff hgroups i i').1 howner
  exact ⟨group, hgroup, hi, i', hi', rfl⟩

theorem equalized_below {n : Nat} {v v' u : Fin n → Nat} {b : Bool} {s : List Nat × Bool} {groups : List OwnerRange}
    (h : Raised v b (AskedWithin groups v) v' s) (hgroups : partitions groups n = true) (hu : ∀ i, v i ≤ u i)
    (huniform : ∀ i i' : Fin n, ownerOf groups i = ownerOf groups i' → u i = u i') (i : Fin n) : v' i ≤ u i := by
  refine h.least u hu (fun k a hk => ?_) i
  obtain ⟨group, hgroup, hhas, k', hk', rfl⟩ := hk
  rw [huniform k k' ((ownerOf_eq_iff hgroups k k').2 ⟨group, hgroup, hhas, hk'⟩)]
  exact hu k'

variable (start invariant) in
/-- A sweep raises the offsets by the constraints, unless an order leaves `u32` in every solution above them. -/
theorem refineSweep_spec (hsig : Signature rows rows.length) (hσ : ∀ row, SignatureEdge rows row (σ row))
    (hrows : partitions groups.rows rows.length = true) (hcolumns : partitions groups.columns rows.length = true)
    (hd : ∀ i, signatureOrder rows i (σ i) ≤ d (σ i)) :
    Outcome (refineSweep rows (matchingColumns σ) groups (List.ofFn invariant) (List.ofFn c) (List.ofFn d))
      (fun r => ∃ c' d', r.1 = (List.ofFn c', List.ofFn d') ∧
        (ownerConstraints rows σ invariant groups start).Sweep (c, d) (c', d') ∧ (r.2 = true ↔ (c', d') ≠ (c, d)) ∧
        ((∀ i, c i < u32Limit) → (∀ j, d j < u32Limit) → (∀ i, c' i < u32Limit) ∧ ∀ j, d' j < u32Limit))
      (fun _ => ∀ s, (ownerConstraints rows σ invariant groups start).Solves s → (c, d) ≤ s → ∃ j, u32Limit ≤ s.2 j) := by
  obtain ⟨c₁, h₁⟩ := equalize_raised c false (partitions_stop_le hrows) (partitions_apart hrows)
  have hs₁ : equalize groups.rows (List.ofFn c, false) = (List.ofFn c₁, (equalize groups.rows (List.ofFn c, false)).2) :=
    Prod.ext h₁.values rfl
  unfold refineSweep
  rw [hs₁]
  have hbelow₁ : ∀ s, (ownerConstraints rows σ invariant groups start).Solves s → (c, d) ≤ s → ∀ i, c₁ i ≤ s.1 i :=
    fun s hs hle => equalized_below h₁ hrows (fun i => GroupedValues.row_le hle i) hs.rows
  refine ((relaxVariableOrders_raised hsig c₁ d _).mono (fun _ h => h) fun _ h s hs hle => ?_).bind fun s₂ h => ?_
  · obtain ⟨i, j, hedge, hvaries, hlimit⟩ := h
    have := hs.edges i j _ ⟨hedge, hvaries, rfl⟩
    have := hbelow₁ s hs hle i
    exact ⟨j, by omega⟩
  obtain ⟨⟨d₁, h₂⟩, hfits⟩ := h
  obtain ⟨d₂, h₃⟩ := equalize_raised d₁ s₂.2 (partitions_stop_le hcolumns) (partitions_apart hcolumns)
  have hs₂ : s₂ = (List.ofFn d₁, s₂.2) := Prod.ext h₂.values rfl
  rw [← hs₂] at h₃
  have hs₃ : equalize groups.columns s₂ = (List.ofFn d₂, (equalize groups.columns s₂).2) := Prod.ext h₃.values rfl
  rw [hs₃]
  obtain ⟨c₂, s₄, hrun, h₄⟩ := raiseMatched_raised hsig hσ
    (fun i => (hd i).trans ((h₂.le _).trans (h₃.le _))) c₁ (equalize groups.columns s₂).2
  refine .inl ⟨((List.ofFn c₂, List.ofFn d₂), s₄.2), ?_, c₂, d₂, rfl, ?_, ?_, fun hc hd => ?_⟩
  · simp only [hrun, pure_bind, h₄.values]
  · refine {
      le := ⟨fun i => (h₁.le i).trans (h₄.le i), fun j => (h₂.le j).trans (h₃.le j)⟩
      below := fun s hs hle => ?_
      rows_le := fun i i' hi => (h₁.asked i (c i') (asked_of_owner hrows hi)).trans (h₄.le i)
      columns_eq := fun j j' hj => le_antisymm (equalized_eq h₃ hcolumns hj) (equalized_eq h₃ hcolumns hj.symm)
      edge_le := fun i i' j w hw hi => ?_
      tie_le := fun i j w hw => ?_ }
    · have hc₁ := hbelow₁ s hs hle
      have hd₁ : ∀ j, d₁ j ≤ s.2 j := by
        refine h₂.least s.2 (fun j => GroupedValues.column_le hle j) fun j a ha => ?_
        obtain ⟨i, entry, he, hj, hvaries, rfl⟩ := ha
        have := hs.edges i j _ ⟨⟨entry, he, hj⟩, hvaries, rfl⟩
        rw [signatureOrder_eq hsig he hj] at this
        have := hc₁ i
        omega
      have hd₂ := equalized_below h₃ hcolumns hd₁ hs.columns
      refine ⟨fun i => h₄.least s.1 hc₁ (fun i a ha => ?_) i, hd₂⟩
      have := hs.ties i (σ i) _ ⟨rfl, rfl⟩
      have := hd₂ (σ i)
      omega
    · obtain ⟨⟨entry, he, hj⟩, hvaries, rfl⟩ := hw
      rw [signatureOrder_eq hsig he hj]
      have h1 := h₁.asked i (c i') (asked_of_owner hrows hi)
      have h2 := h₂.asked j (c₁ i + entry.order) ⟨i, entry, he, hj, hvaries, rfl⟩
      have h3 := h₃.le j
      simp only
      omega
    · obtain ⟨rfl, rfl⟩ := hw
      have := h₄.asked i _ rfl
      simp only
      omega
  · have hflag : s₄.2 = true ↔ ((c₁ ≠ c ∨ d₁ ≠ d) ∨ d₂ ≠ d₁) ∨ c₂ ≠ c₁ := by
      rw [h₄.flag, h₃.flag, h₂.flag, h₁.flag]
      simp
    simp only [hflag]
    have hcle : c₂ = c → c₁ = c := fun heq =>
      funext fun i => le_antisymm ((h₄.le i).trans (congrFun heq i).le) (h₁.le i)
    have hdle : d₂ = d → d₁ = d := fun heq =>
      funext fun j => le_antisymm ((h₃.le j).trans (congrFun heq j).le) (h₂.le j)
    rw [ne_eq (c₂, d₂), Prod.mk.injEq]
    constructor
    · rintro (((hne | hne) | hne) | hne) ⟨hc, hd⟩
      · exact hne (hcle hc)
      · exact hne (hdle hd)
      · exact hne (hd.trans (hdle hd).symm)
      · exact hne (hc.trans (hcle hc).symm)
    · intro hne
      by_contra hsame
      push Not at hsame
      obtain ⟨⟨⟨hc, hd⟩, hd'⟩, hc'⟩ := hsame
      exact hne ⟨hc'.trans hc, hd'.trans hd⟩
  · have hle : ∀ {m : Nat}, m < u32Limit → m ≤ u32Limit - 1 := fun h => by omega
    have hlt : ∀ {m : Nat}, m ≤ u32Limit - 1 → m < u32Limit := fun h => by
      unfold u32Limit at h ⊢
      omega
    have hc₁ : ∀ i, c₁ i ≤ u32Limit - 1 :=
      equalized_below (u := fun _ => u32Limit - 1) h₁ hrows (fun i => hle (hc i)) fun _ _ _ => rfl
    have hd₁ : ∀ j, d₁ j ≤ u32Limit - 1 :=
      h₂.least (fun _ => u32Limit - 1) (fun j => hle (hd j)) fun j a ha => hle (hfits j a ha)
    have hd₂ : ∀ j, d₂ j ≤ u32Limit - 1 :=
      equalized_below (u := fun _ => u32Limit - 1) h₃ hcolumns hd₁ fun _ _ _ => rfl
    refine ⟨fun i => hlt (h₄.least (fun _ => u32Limit - 1) hc₁ (fun i a ha => ?_) i), fun j => hlt (hd₂ j)⟩
    have := hd₂ (σ i)
    omega

/-! ## The refinement -/

/-- Every offset is a `u32`. -/
def InU32 (s : GroupedValues (Fin rows.length) (Fin rows.length)) : Prop :=
  (∀ i, s.1 i < u32Limit) ∧ ∀ j, s.2 j < u32Limit

def offsetVectors (s : GroupedValues (Fin rows.length) (Fin rows.length)) : List Nat × List Nat :=
  (List.ofFn s.1, List.ofFn s.2)

variable (invariant) in
theorem refineSweeps_spec (hsig : Signature rows rows.length) (hσ : ∀ row, SignatureEdge rows row (σ row))
    (hrows : partitions groups.rows rows.length = true) (hcolumns : partitions groups.columns rows.length = true)
    (sweeps : Nat) {x : GroupedValues (Fin rows.length) (Fin rows.length)} (hstart : start ≤ x)
    (hd : ∀ i, signatureOrder rows i (σ i) ≤ x.2 (σ i)) (hfits : InU32 x)
    (hbelow : ∀ s, (ownerConstraints rows σ invariant groups start).Solves s → x ≤ s) :
    Outcome (refineSweeps rows (matchingColumns σ) groups (List.ofFn invariant) sweeps (List.ofFn x.1) (List.ofFn x.2))
      (fun offsets => match offsets with
        | some offsets => ∃ s, offsets = offsetVectors s ∧
            (ownerConstraints rows σ invariant groups start).IsLeast s ∧ InU32 s
        | none => ∀ s, (ownerConstraints rows σ invariant groups start).IsLeast s →
            sweeps ≤ sweepsLeft (ownerConstraints rows σ invariant groups start) s x)
      (fun _ => ∀ s, (ownerConstraints rows σ invariant groups start).Solves s → ¬ InU32 s) := by
  induction sweeps generalizing x with
  | zero => exact Outcome.pure fun _ _ => Nat.zero_le _
  | succ sweeps ih =>
    rw [refineSweeps]
    refine ((refineSweep_spec invariant start (c := x.1) hsig hσ hrows hcolumns hd).mono (fun _ h => h)
      fun _ h s hs hin => ?_).bind fun r h => ?_
    · obtain ⟨j, hj⟩ := h s hs (hbelow s hs)
      exact absurd (hin.2 j) (not_lt.2 hj)
    obtain ⟨offsets, changed⟩ := r
    obtain ⟨c, d, rfl, hsweep, hchanged, hin⟩ := h
    have hfits' : InU32 (c, d) := hin hfits.1 hfits.2
    have hstart' : start ≤ (c, d) := hstart.trans hsweep.le
    have hbelow' : ∀ s, (ownerConstraints rows σ invariant groups start).Solves s → (c, d) ≤ s :=
      fun s hs => hsweep.below s hs (hbelow s hs)
    cases changed with
    | true =>
      refine (ih (x := (c, d)) hstart' (fun i => (hd i).trans (GroupedValues.column_le hsweep.le _)) hfits' hbelow').mono
        (fun offsets h => ?_) fun _ h => h
      cases offsets with
      | some offsets => exact h
      | none =>
        intro s hs
        exact (h s hs).trans_lt (sweepsLeft_lt hs hsweep (hbelow s hs.1) hstart (hchanged.1 rfl))
    | false =>
      have hsame : ((c, d) : GroupedValues _ _) = x := by
        by_contra hne
        exact absurd (hchanged.2 hne) Bool.false_ne_true
      rw [← hsame] at hsweep
      exact Outcome.pure ⟨(c, d), rfl, ⟨hsweep.solves hstart', hbelow'⟩, hfits'⟩

/-- The refinement returns offsets exactly where its constraints have a solution within `u32`, and the least one. -/
theorem refineOffsets_least (hsig : Signature rows rows.length) (hσ : ∀ row, SignatureEdge rows row (σ row))
    (hrows : partitions groups.rows rows.length = true) (hcolumns : partitions groups.columns rows.length = true)
    (hsize : groups.rows.length + groups.columns.length < usizeLimit)
    (hd : ∀ i, signatureOrder rows i (σ i) ≤ start.2 (σ i)) (hfits : InU32 start) :
    (∀ offsets, refineOffsets rows (matchingColumns σ) (offsetVectors start) groups (List.ofFn invariant) =
      pure (some offsets) → ∃ s, offsets = offsetVectors s ∧
        (ownerConstraints rows σ invariant groups start).IsLeast s) ∧
    ((∃ offsets, refineOffsets rows (matchingColumns σ) (offsetVectors start) groups (List.ofFn invariant) =
      pure (some offsets)) ↔ ∃ s, (ownerConstraints rows σ invariant groups start).Solves s ∧ InU32 s) := by
  have hrun : refineOffsets rows (matchingColumns σ) (offsetVectors start) groups (List.ofFn invariant) =
      refineSweeps rows (matchingColumns σ) groups (List.ofFn invariant)
        (groups.rows.length + groups.columns.length + 1) (List.ofFn start.1) (List.ofFn start.2) := by
    rw [refineOffsets, offsetVectors]
    dsimp only
    rw [if_neg (by simp [matchingColumns, hrows, hcolumns]), checkedUsize, if_pos hsize, orError_some, pure_bind]
  rw [hrun]
  have hspec := refineSweeps_spec invariant hsig hσ hrows hcolumns
    (groups.rows.length + groups.columns.length + 1) le_rfl hd hfits fun s hs => hs.start_le
  -- a solvable system has one column at least, or its start would be the only pair
  have hsweeps : ∀ s, (ownerConstraints rows σ invariant groups start).IsLeast s →
      sweepsLeft (ownerConstraints rows σ invariant groups start) s start ≤
        groups.rows.length + groups.columns.length := by
    intro s hs
    rw [sweepsLeft]
    split_ifs with hsame
    · exact Nat.zero_le _
    · have howners : unsettled (ownerConstraints rows σ invariant groups start) s start ≤
          (Finset.range groups.rows.length).card := unsettled_le fun i => Finset.mem_range.2 (ownerOf_lt hrows i)
      rw [Finset.card_range] at howners
      have hpos : 0 < rows.length := by
        by_contra hnone
        have hempty : IsEmpty (Fin rows.length) := ⟨fun i => hnone i.pos⟩
        exact hsame (Prod.ext (funext fun i => hempty.elim i) (funext fun j => hempty.elim j))
      have := ownerOf_lt hcolumns ⟨0, hpos⟩
      omega
  refine ⟨fun offsets h => ?_, ?_, ?_⟩
  · obtain ⟨s, heq, hs, -⟩ := hspec.of_pure h
    exact ⟨s, heq, hs⟩
  · rintro ⟨offsets, h⟩
    obtain ⟨s, -, hs, hin⟩ := hspec.of_pure h
    exact ⟨s, hs.1, hin⟩
  · rintro ⟨s, hs, hin⟩
    rcases hspec with ⟨offsets, hreturned, h⟩ | ⟨_, -, h⟩
    · cases offsets with
      | none =>
        obtain ⟨least, hleast⟩ := exists_isLeast ⟨s, hs⟩
        have := (h least hleast).trans (hsweeps least hleast)
        omega
      | some offsets => exact ⟨offsets, hreturned⟩
    · exact absurd hin (h s hs)

end

/-- Two rows of one equation, each matched to its own column, the first of which is invariant. -/
def vectorRows : List (List SignatureEntry) := [[⟨0, 0⟩], [⟨1, 0⟩]]

theorem vectorRows_signature : Signature vectorRows vectorRows.length := by
  refine ⟨fun row => ?_, fun row => ?_⟩
  · rcases row with - | - | row
    · decide
    · decide
    · intro entry h
      cases h
  · rcases row with - | - | row
    · decide
    · decide
    · exact List.nodup_nil

/-- The second row's order raises the first, whose invariant column stays behind. -/
theorem refineOffsets_vectorRows :
    ∃ s, (([1, 1], [0, 1]) : List Nat × List Nat) = offsetVectors s ∧
      (ownerConstraints vectorRows (Equiv.refl _) (fun j => (j : Nat) == 0) ⟨[⟨0, 2⟩], [⟨0, 1⟩, ⟨1, 2⟩]⟩
        (fun i => i, fun j => j)).IsLeast s := by
  refine (refineOffsets_least vectorRows_signature (fun row => ?_) (by decide) (by decide) (by decide) (by decide)
    (by unfold InU32; decide)).1 ([1, 1], [0, 1]) rfl
  obtain ⟨row, hrow⟩ := row
  rcases row with - | - | row
  · exact ⟨⟨0, 0⟩, by simp [Assignment.Entry, signatureRow, vectorRows], rfl⟩
  · exact ⟨⟨1, 0⟩, by simp [Assignment.Entry, signatureRow, vectorRows], rfl⟩
  · exact absurd hrow (by simp [vectorRows])

end Rumoca.Structural
