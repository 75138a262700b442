import Rumoca.Core.IndexUnions
import Rumoca.Core.ProgressionLimits
/-!
# The binder values that name one element

`solvePoint` narrows the values of each binder axis by axis: an axis over one
binder leaves the quotients of its numerators, an axis without binders holds or
does not, and an axis over several binders is not looked at. A numerator that
overflows is passed over, and the remainder of the least `i64` by `-1` panics;
`solvePoint_iff` has the inputs on which neither matters.
-/

namespace Rumoca.Core

open Rumoca.Lib

namespace Checked

/-! ## The solver -/

def contains (values : Progression) (candidate : Int) : Checked Bool := do
  match ← orRefused (intersect values (.single candidate)) with
  | some hit => return hit.count ≠ 0
  | none => return false

def anyContains : List Progression → Int → Checked Bool
  | [], _ => pure false
  | values :: rest, candidate => do
    match ← contains values candidate with
    | true => return true
    | false => anyContains rest candidate

/-- Every offset value, when there are at most `offsetLimit`, which the turns reach. -/
def offsetsOf (offsets : List Progression) : Checked (List Int) :=
  offsets.foldlM (fun values part => do
    match part.firstOf, ← last part with
    | some first, some last =>
      match offsetsFrom part.step last (offsetLimit + 2) first values with
      | some values => return values
      | none => throw ()
    | _, _ => return values) []

def quotients (scale target : Int) : List Int → Checked (List Int)
  | [] => pure []
  | offset :: rest =>
    match checkedI64 (target - offset) with
    | none => quotients scale target rest
    | some numerator =>
      -- the remainder overflows with the quotient
      if numerator = -i64Limit ∧ scale = -1 then ExceptT.mk none
      else do
        let later ← quotients scale target rest
        return if numerator.tmod scale = 0 then numerator.tdiv scale :: later else later

def reachedOf (current : List Progression) : List Int → Checked (List Progression)
  | [] => pure []
  | candidate :: rest => do
    let hit ← anyContains current candidate
    let later ← reachedOf current rest
    return if hit then .single candidate :: later else later

/-- One axis: the values that are still allowed, or none where it names no such element. -/
def solveAxis (axis : IndexAxis) (value : Int) (allowed : List (List Progression)) :
    Checked (Option (List (List Progression))) :=
  match axisBinders axis with
  | [] => do
    let target ← tried (value - axis.form.constant)
    let hit ← anyContains axis.offsets target
    return if hit then some allowed else none
  | [binder] => do
    let target ← tried (value - axis.form.constant)
    let offsets ← offsetsOf axis.offsets
    let values ← quotients (axis.form.scale binder) target offsets
    match allowed[binder]? with
    | none => ExceptT.mk none
    | some current =>
      let reached ← reachedOf current values
      return if reached = [] then none else some (allowed.set binder reached)
  | _ => return some allowed

def solveAxes : List (IndexAxis × Int) → List (List Progression) → (exact : Bool) → Checked SetAnswer
  | [], allowed, exact =>
    return if exact then .exact (IndexUnion.of (product allowed)) else .superset (IndexUnion.of (product allowed))
  | (axis, value) :: rest, allowed, exact => do
    match ← solveAxis axis value allowed with
    | none => return .exact []
    | some next => solveAxes rest next (exact && decide ((axisBinders axis).length ≤ 1))

/-- The binder values of the region at which the index is one of the elements that the axes name. -/
def solvePoint (axes : List IndexAxis) (region : IndexBox) (index : List Int) : Checked SetAnswer :=
  if axes.length ≠ index.length ∨ ∃ axis ∈ axes, region.length < axis.form.coeffs.length then throw ()
  else solveAxes (axes.zip index) (region.map ([·])) true

/-! ## What it is to solve -/

def valueAt (point : List Int) (binder : Nat) : Int := (point[binder]?).getD 0

def NamedBy (axes : List IndexAxis) (region : IndexBox) (index point : List Int) : Prop :=
  BoxHas region point ∧ List.Forall₂ (fun axis x => axis.NamedAt (valueAt point) x) axes index

def Correct (axes : List IndexAxis) (region : IndexBox) (index : List Int) : SetAnswer → Prop
  | .exact set => ∀ point, IndexUnion.Has set point ↔ NamedBy axes region index point
  | .superset set => ∀ point, NamedBy axes region index point → IndexUnion.Has set point

/-! ## One axis -/

abbrev Wanted := IndexAxis × Int

variable {region : IndexBox} {wanted : Wanted} {done rest : List Wanted} {allowed : List (List Progression)}

def target (wanted : Wanted) : Int := wanted.2 - wanted.1.form.constant

def term (wanted : Wanted) (binder : Nat) (v : Int) : Int := wanted.1.form.scale binder * v

/-- The axis is not refused: its target is an `i64` and its offsets are few. -/
def Accepts (wanted : Wanted) : Prop :=
  (axisBinders wanted.1 = [] → IsI64 (target wanted)) ∧
    ∀ binder, axisBinders wanted.1 = [binder] → IsI64 (target wanted) ∧ ∃ offsets, offsetsOf wanted.1.offsets = pure offsets

def Trips (wanted : Wanted) : Prop :=
  Accepts wanted ∧ ∃ binder, axisBinders wanted.1 = [binder] ∧ wanted.1.form.scale binder = -1 ∧
    AnyHas wanted.1.offsets (target wanted + i64Limit)

/-- The axis is solved at these values: without a binder by itself, over one binder by its value. -/
def Solves (region : IndexBox) (wanted : Wanted) (p : Nat → Int) : Prop :=
  (axisBinders wanted.1 = [] → AnyHas wanted.1.offsets (target wanted)) ∧
    ∀ binder, axisBinders wanted.1 = [binder] →
      (∃ values, region[binder]? = some values ∧ p binder ∈ values) ∧ IsI64 (term wanted binder (p binder)) ∧
        AnyHas wanted.1.offsets (target wanted - term wanted binder (p binder))

def Passes (region : IndexBox) (done : List Wanted) : Prop :=
  (∀ wanted ∈ done, Accepts wanted) ∧ ∃ p, ∀ wanted ∈ done, Solves region wanted p

def Comes (region : IndexBox) (all : List Wanted) (wanted : Wanted) : Prop :=
  ∃ pre post, all = pre ++ wanted :: post ∧ Passes region pre

/-! ## Membership tests -/

theorem fits_anyHas {parts : List Progression} (h : ∀ part ∈ parts, Fits part) {x : Int} (hx : AnyHas parts x) : IsI64 x := by
  obtain ⟨part, hpart, hx⟩ := hx
  exact (h part hpart).mem hx

theorem intersect_single {p : Progression} (hp : Fits p) {x : Int} (hx : x ∈ p) :
    ∃ r, intersect p (.single x) = pure r := by
  have hne : p.count ≠ 0 := fun hzero => Progression.not_mem_of_count hzero hx
  have hi := hp.mem hx
  have hlo := Progression.first_le hx
  have hhi := Progression.le_last hx
  have hreach := hp.reach hne
  have hfirst := hp.first
  have hpos := p.step_pos
  unfold intersect
  rw [last_of_fits hp, last_of_fits (fits_single hi), pure_bind, pure_bind, Progression.lastOf, if_neg hne]
  have hlast : (Progression.single x).lastOf = some x := by simp [Progression.lastOf, Progression.single]
  rw [hlast]
  simp only
  rw [show max p.first (Progression.single x).first = x from max_eq_right hlo, min_eq_right hhi, if_neg (lt_irrefl x)]
  -- the step of a single element is one, and so is the common divisor
  have hgcd : extendedGcd ((Progression.single x).step.toNat + 1) p.step (Progression.single x).step = pure (1, 0, 1) := by
    have hzero : IsI64 0 := by decide
    have hone : IsI64 1 := by decide
    show extendedGcd 2 p.step 1 = _
    simp only [extendedGcd, one_ne_zero, if_false, Int.tmod_one, if_true, pure_bind, mul_zero, sub_zero, plain_eq hzero,
      plain_eq hone]
  unfold meetBetween
  rw [hgcd, pure_bind]
  simp only [Int.tmod_one, Int.tdiv_one, mul_zero, ne_eq, not_true, if_false]
  have hstep : (Progression.single x).step = 1 := rfl
  have hdiff : IsI64 ((Progression.single x).first - p.first) := by
    have : (Progression.single x).first = x := rfl
    rw [this]
    unfold IsI64 at hfirst ⊢
    omega
  have hoff : (p.first + 0 * p.step - x) % p.step = 0 := by
    obtain ⟨k, -, rfl⟩ := hx
    exact Int.emod_eq_zero_of_dvd ⟨-k, by ring⟩
  have hpstep : IsI64 p.step := ⟨by unfold i64Limit; omega, hp.step⟩
  rw [tried_eq hdiff, pure_bind, hstep, mul_one, tried_eq hpstep, pure_bind]
  simp only [Int.zero_tmod]
  rw [hoff, add_zero, tried_eq hi, pure_bind, if_neg (lt_irrefl x)]
  obtain ⟨r, hr, -⟩ := run_fits hp hne hlo (le_refl x) le_rfl hp.step hhi
  exact ⟨r, hr⟩

theorem contains_spec {p : Progression} (hp : Fits p) {x : Int} (hi : IsI64 x) :
    ∃ hit, contains p x = pure hit ∧ (hit = true ↔ x ∈ p) := by
  unfold contains
  rcases intersect_answers hp (fits_single hi) with ⟨r, hr, -⟩ | ⟨⟨⟩, hr, -⟩
  · rw [hr]
    refine ⟨_, rfl, ?_⟩
    rw [decide_eq_true_iff, ← Progression.exists_mem_iff]
    simp only [(intersect_spec hr).1, Progression.mem_single, exists_eq_right]
  · rw [hr]
    refine ⟨_, rfl, iff_of_false Bool.false_ne_true fun hx => ?_⟩
    obtain ⟨r, hr'⟩ := intersect_single hp hx
    exact nomatch Option.some.inj (hr.symm.trans hr')

theorem anyContains_spec {parts : List Progression} (hparts : ∀ part ∈ parts, Fits part) {x : Int} (hi : IsI64 x) :
    ∃ hit, anyContains parts x = pure hit ∧ (hit = true ↔ AnyHas parts x) := by
  induction parts with
  | nil => exact ⟨false, rfl, iff_of_false Bool.false_ne_true fun ⟨_, h, _⟩ => nomatch h⟩
  | cons part parts ih =>
    obtain ⟨hit, hrun, hhit⟩ := contains_spec (hparts part (by simp)) hi
    have hsplit : AnyHas (part :: parts) x ↔ x ∈ part ∨ AnyHas parts x := by simp [AnyHas]
    rw [anyContains, hrun, pure_bind, hsplit]
    cases hit with
    | true => exact ⟨true, rfl, iff_of_true rfl (.inl (hhit.1 rfl))⟩
    | false =>
      obtain ⟨later, hlater, hany⟩ := ih fun part h => hparts part (by simp [h])
      have hno : x ∉ part := fun hx => Bool.false_ne_true (hhit.2 hx)
      exact ⟨later, hlater, by rw [hany, or_iff_right hno]⟩

theorem offsetsOf_cases {parts : List Progression} (hparts : ∀ part ∈ parts, Fits part) :
    (∃ offsets, offsetsOf parts = pure offsets ∧ ∀ x, x ∈ offsets ↔ AnyHas parts x) ∨ offsetsOf parts = throw () := by
  have hpass : Answers (offsetsOf parts) fun offsets => ∀ x, x ∈ offsets ↔ AnyHas parts x := by
    refine Outcome.foldlM (fun (passed : List Progression) (offsets : List Int) => ∀ x, x ∈ offsets ↔ AnyHas passed x)
      (fun pre part post values hsplit hvalues => ?_) fun x => by simp [AnyHas]
    have hfits := hparts part (by simp [hsplit])
    have hadd : ∀ x, AnyHas (pre ++ [part]) x ↔ AnyHas pre x ∨ x ∈ part := fun x => by simp [AnyHas, or_and_right, exists_or]
    rw [last_of_fits hfits, pure_bind, Progression.firstOf, Progression.lastOf]
    by_cases hcount : part.count = 0
    · rw [if_pos hcount]
      refine .pure fun x => ?_
      rw [hadd, hvalues, or_iff_left (Progression.not_mem_of_count hcount)]
    · rw [if_neg hcount, if_neg hcount]
      simp only
      cases hfrom : offsetsFrom part.step (part.first + (part.count - 1) * part.step) (offsetLimit + 2) part.first values with
      | none => exact .throw trivial
      | some found =>
        refine .pure fun x => ?_
        rw [offsetsFrom_spec part.step_pos hfrom, hvalues, hadd]
        refine or_congr_right ⟨fun hreached => ?_, fun hx => ?_⟩
        · obtain ⟨k, rfl, hk⟩ := hreached
          have hle : (k : Int) ≤ part.count - 1 := le_of_mul_le_mul_right (by omega) part.step_pos
          exact ⟨k, by omega, rfl⟩
        · have hle := Progression.le_last hx
          obtain ⟨k, -, rfl⟩ := hx
          exact ⟨k, rfl, hle⟩
  rcases hpass with ⟨offsets, h, hmem⟩ | ⟨⟨⟩, h, -⟩
  · exact .inl ⟨offsets, h, hmem⟩
  · exact .inr h

/-! ## Quotients -/

theorem isI64_of_mul {scale v : Int} (hscale : scale ≠ 0) (h : IsI64 (scale * v))
    (hleast : ¬ (scale * v = -i64Limit ∧ scale = -1)) : IsI64 v := by
  have hle : |v| ≤ |scale * v| := by
    rw [abs_mul]
    exact le_mul_of_one_le_left (abs_nonneg v) (Int.one_le_abs hscale)
  unfold IsI64 at h ⊢
  by_cases hv : v = i64Limit
  · -- only the negation of the least value is as large
    subst hv
    refine absurd ?_ hleast
    have hpos : (0 : Int) < i64Limit := by decide
    have h₁ : -1 * i64Limit ≤ scale * i64Limit := by omega
    have h₂ : scale * i64Limit < 1 * i64Limit := by omega
    have := le_of_mul_le_mul_right h₁ hpos
    have := lt_of_mul_lt_mul_right h₂ hpos.le
    have hone : scale = -1 := by omega
    exact ⟨by rw [hone]; ring, hone⟩
  · have hlarge : |scale * v| ≤ i64Limit := abs_le.2 ⟨h.1, h.2.le⟩
    have := abs_le.1 (hle.trans hlarge)
    omega

theorem quotients_trip {scale target offset : Int} {offsets : List Int} (hmem : offset ∈ offsets)
    (hleast : target - offset = -i64Limit) (hscale : scale = -1) : quotients scale target offsets = ExceptT.mk none := by
  induction offsets with
  | nil => cases hmem
  | cons first rest ih =>
    rw [quotients]
    rcases List.mem_cons.1 hmem with rfl | hmem
    · have : checkedI64 (target - offset) = some (target - offset) := checkedI64_eq_some.2 ⟨rfl, by rw [hleast]; decide⟩
      rw [this]
      simp only
      rw [if_pos ⟨hleast, hscale⟩]
    · cases checkedI64 (target - first) with
      | none => exact ih hmem
      | some numerator =>
        simp only
        split
        · rfl
        · rw [ih hmem]
          rfl

theorem quotients_spec {scale target : Int} {offsets : List Int} (hscale : scale ≠ 0)
    (h : ∀ offset ∈ offsets, ¬ (target - offset = -i64Limit ∧ scale = -1)) :
    ∃ values, quotients scale target offsets = pure values ∧ (∀ v ∈ values, IsI64 v) ∧
      ∀ v, v ∈ values ↔ IsI64 (scale * v) ∧ target - scale * v ∈ offsets := by
  induction offsets with
  | nil => exact ⟨[], rfl, by simp, by simp⟩
  | cons first rest ih =>
    obtain ⟨later, hlater, hi, hmem⟩ := ih fun offset ho => h offset (by simp [ho])
    rw [quotients]
    cases hchecked : checkedI64 (target - first) with
    | none =>
      refine ⟨later, hlater, hi, fun v => ?_⟩
      rw [hmem v, List.mem_cons]
      refine and_congr_right fun hv => (or_iff_right fun heq => ?_).symm
      have : checkedI64 (target - first) = some (scale * v) := checkedI64_eq_some.2 ⟨by omega, by rw [← heq, sub_sub_cancel]; exact hv⟩
      rw [hchecked] at this
      cases this
    | some numerator =>
      obtain ⟨rfl, hnum⟩ := checkedI64_eq_some.1 hchecked
      simp only
      rw [if_neg (h first (by simp)), hlater, pure_bind]
      refine ⟨_, rfl, ?_⟩
      split
      · next hdvd =>
        obtain ⟨v, hv⟩ := Int.dvd_of_tmod_eq_zero hdvd
        have hquot : (target - first).tdiv scale = v := by rw [hv, Int.mul_tdiv_cancel_left _ hscale]
        rw [hquot]
        have hvi : IsI64 v := isI64_of_mul hscale (hv ▸ hnum) (hv ▸ h first (by simp))
        refine ⟨fun w hw => (List.mem_cons.1 hw).elim (· ▸ hvi) (hi w), fun w => ?_⟩
        rw [List.mem_cons, List.mem_cons, hmem w]
        have hfirst : w = v ↔ target - scale * w = first := by
          constructor
          · rintro rfl
            omega
          · intro hw
            exact mul_left_cancel₀ hscale (by omega)
        constructor
        · rintro (rfl | ⟨hw, hin⟩)
          · exact ⟨hv ▸ hnum, .inl (hfirst.1 rfl)⟩
          · exact ⟨hw, .inr hin⟩
        · rintro ⟨hw, hin | hin⟩
          · exact .inl (hfirst.2 hin)
          · exact .inr ⟨hw, hin⟩
      · next hdvd =>
        refine ⟨hi, fun w => ?_⟩
        rw [hmem w, List.mem_cons]
        refine and_congr_right fun hw => (or_iff_right fun heq => hdvd ?_).symm
        exact Int.tmod_eq_zero_of_dvd ⟨w, by omega⟩

theorem reachedOf_spec {current : List Progression} (hcurrent : ∀ part ∈ current, Fits part) {values : List Int}
    (hi : ∀ v ∈ values, IsI64 v) : ∃ reached, reachedOf current values = pure reached ∧
      (∀ part ∈ reached, Fits part ∧ part.count ≠ 0) ∧ ∀ v, AnyHas reached v ↔ v ∈ values ∧ AnyHas current v := by
  induction values with
  | nil => exact ⟨[], rfl, by simp, by simp [AnyHas]⟩
  | cons candidate rest ih =>
    obtain ⟨later, hlater, hfits, hmem⟩ := ih fun v hv => hi v (by simp [hv])
    obtain ⟨hit, hrun, hhit⟩ := anyContains_spec hcurrent (hi candidate (by simp))
    rw [reachedOf, hrun, pure_bind, hlater, pure_bind]
    refine ⟨_, rfl, ?_⟩
    cases hit with
    | true =>
      have hfirst := fits_single (hi candidate (by simp))
      refine ⟨fun part hpart => (List.mem_cons.1 hpart).elim (· ▸ ⟨hfirst, Nat.one_ne_zero⟩) (hfits part), fun v => ?_⟩
      have hsplit : AnyHas (.single candidate :: later) v ↔ v = candidate ∨ AnyHas later v := by
        simp [AnyHas, Progression.mem_single]
      rw [if_pos rfl, hsplit, hmem v, List.mem_cons, or_and_right]
      exact or_congr_left ⟨fun hv => ⟨hv, hv ▸ hhit.1 rfl⟩, And.left⟩
    | false =>
      refine ⟨hfits, fun v => ?_⟩
      rw [if_neg Bool.false_ne_true, hmem v, List.mem_cons, or_and_right]
      refine (or_iff_right ?_).symm
      rintro ⟨rfl, hv⟩
      exact Bool.false_ne_true (hhit.2 hv)

/-! ## One turn -/

/-- What is allowed after the axes `done`: the region's values at which each of them over the binder is solved. -/
structure Keeps (region : IndexBox) (done : List Wanted) (allowed : List (List Progression)) : Prop where
  length : allowed.length = region.length
  fits : ∀ current ∈ allowed, ∀ part ∈ current, Fits part
  mem : ∀ binder values current, region[binder]? = some values → allowed[binder]? = some current →
    ∀ v, AnyHas current v ↔ v ∈ values ∧ ∀ wanted ∈ done, axisBinders wanted.1 = [binder] →
      IsI64 (term wanted binder v) ∧ AnyHas wanted.1.offsets (target wanted - term wanted binder v)
  passes : Passes region done

theorem keeps_start (hregion : ∀ values ∈ region, Fits values) : Keeps region [] (region.map ([·])) := by
  refine ⟨List.length_map _, ?_, ?_, by simp [Passes]⟩
  · intro current hcurrent part hpart
    obtain ⟨values, hvalues, rfl⟩ := List.mem_map.1 hcurrent
    exact List.mem_singleton.1 hpart ▸ hregion values hvalues
  · intro binder values current hvalues hcurrent v
    rw [List.getElem?_map, hvalues] at hcurrent
    obtain rfl := Option.some.inj hcurrent
    simp [anyHas_singleton]

theorem axisBinders_single {axis : IndexAxis} {binder : Nat} (h : axisBinders axis = [binder]) :
    binder < axis.form.coeffs.length ∧ axis.form.scale binder ≠ 0 := by
  have hmem : binder ∈ axisBinders axis := by rw [h]; exact List.mem_singleton_self _
  obtain ⟨hlt, hne⟩ := List.mem_filter.1 hmem
  exact ⟨List.mem_range.1 hlt, by simpa using hne⟩

theorem solves_update {p : Nat → Int} {binder : Nat} {v : Int} (h : Solves region wanted p)
    (hv : axisBinders wanted.1 = [binder] → (∃ values, region[binder]? = some values ∧ v ∈ values) ∧
      IsI64 (term wanted binder v) ∧ AnyHas wanted.1.offsets (target wanted - term wanted binder v)) :
    Solves region wanted (Function.update p binder v) := by
  refine ⟨h.1, fun other hother => ?_⟩
  by_cases heq : other = binder
  · subst heq
    rw [Function.update_self]
    exact hv hother
  · rw [Function.update_of_ne heq]
    exact h.2 other hother

theorem Keeps.skip (h : Keeps region done allowed) (haccepts : Accepts wanted)
    (hsolves : ∀ p, Solves region wanted p) (hbinders : ∀ binder, axisBinders wanted.1 ≠ [binder]) :
    Keeps region (done ++ [wanted]) allowed := by
  refine ⟨h.length, h.fits, fun binder values current hvalues hcurrent v => ?_, fun w hw => ?_, ?_⟩
  · rw [h.mem binder values current hvalues hcurrent v]
    refine and_congr_right fun _ => ⟨fun hall w hw hb => ?_, fun hall w hw => hall w (by simp [hw])⟩
    rcases List.mem_append.1 hw with hw | hw
    · exact hall w hw hb
    · exact absurd (List.mem_singleton.1 hw ▸ hb) (hbinders binder)
  · rcases List.mem_append.1 hw with hw | hw
    · exact h.passes.1 w hw
    · exact List.mem_singleton.1 hw ▸ haccepts
  · obtain ⟨p, hp⟩ := h.passes.2
    refine ⟨p, fun w hw => ?_⟩
    rcases List.mem_append.1 hw with hw | hw
    · exact hp w hw
    · exact List.mem_singleton.1 hw ▸ hsolves p

theorem Keeps.narrow (h : Keeps region done allowed) (haccepts : Accepts wanted) {binder : Nat}
    (hbinder : axisBinders wanted.1 = [binder]) {values : Progression} {current reached : List Progression}
    (hvalues : region[binder]? = some values) (hcurrent : allowed[binder]? = some current)
    (hfits : ∀ part ∈ reached, Fits part ∧ part.count ≠ 0) (hsome : reached ≠ [])
    (hmem : ∀ v, AnyHas reached v ↔ AnyHas current v ∧
      IsI64 (term wanted binder v) ∧ AnyHas wanted.1.offsets (target wanted - term wanted binder v)) :
    Keeps region (done ++ [wanted]) (allowed.set binder reached) := by
  have hlt : binder < allowed.length := (List.getElem?_eq_some_iff.1 hcurrent).1
  refine ⟨by rw [List.length_set, h.length], ?_, fun other values' current' hvalues' hcurrent' v => ?_, fun w hw => ?_, ?_⟩
  · intro current' hcurrent' part hpart
    rcases List.mem_or_eq_of_mem_set hcurrent' with hold | rfl
    · exact h.fits current' hold part hpart
    · exact (hfits part hpart).1
  · by_cases heq : other = binder
    · subst heq
      rw [List.getElem?_set_self hlt] at hcurrent'
      obtain rfl := Option.some.inj hcurrent'
      rw [hmem v, h.mem other values' current hvalues' hcurrent v, and_assoc]
      refine and_congr_right fun _ => ⟨fun ⟨hall, hnew⟩ w hw hb => ?_, fun hall => ⟨fun w hw => hall w (by simp [hw]), ?_⟩⟩
      · rcases List.mem_append.1 hw with hw | hw
        · exact hall w hw hb
        · exact List.mem_singleton.1 hw ▸ hnew
      · exact hall wanted (by simp) hbinder
    · rw [List.getElem?_set_ne (Ne.symm heq)] at hcurrent'
      rw [h.mem other values' current' hvalues' hcurrent' v]
      refine and_congr_right fun _ => ⟨fun hall w hw hb => ?_, fun hall w hw => hall w (by simp [hw])⟩
      rcases List.mem_append.1 hw with hw | hw
      · exact hall w hw hb
      · rw [List.mem_singleton.1 hw, hbinder] at hb
        exact absurd (List.cons.inj hb).1.symm heq
  · rcases List.mem_append.1 hw with hw | hw
    · exact h.passes.1 w hw
    · exact List.mem_singleton.1 hw ▸ haccepts
  · -- a value that is left, in the place of the binder's old one
    obtain ⟨part, hpart⟩ := List.exists_mem_of_ne_nil reached hsome
    have hv := (hmem part.first).1 ⟨part, hpart, Progression.first_mem (hfits part hpart).2⟩
    have hold := (h.mem binder values current hvalues hcurrent part.first).1 hv.1
    obtain ⟨p, hp⟩ := h.passes.2
    refine ⟨Function.update p binder part.first, fun w hw => ?_⟩
    rcases List.mem_append.1 hw with hw | hw
    · exact solves_update (hp w hw) fun hb => ⟨⟨values, hvalues, hold.1⟩, hold.2 w hw hb⟩
    · rw [List.mem_singleton.1 hw]
      refine ⟨fun hnil => ?_, fun other hother => ?_⟩
      · rw [hbinder] at hnil
        cases hnil
      · obtain ⟨rfl, -⟩ := List.cons.inj (hbinder.symm.trans hother)
        rw [Function.update_self]
        exact ⟨⟨values, hvalues, hold.1⟩, hv.2⟩

/-- What a turn does: it panics, refuses, finds no solution, or keeps the invariant. -/
inductive Turn (region : IndexBox) (done : List Wanted) (wanted : Wanted) :
    Checked (Option (List (List Progression))) → Prop where
  | trips (h : Trips wanted) : Turn region done wanted (ExceptT.mk none)
  | refuses (h : ¬ Accepts wanted) : Turn region done wanted (throw ())
  | stops (h : Accepts wanted) (htrips : ¬ Trips wanted) (hnone : ¬ ∃ p, ∀ w ∈ done ++ [wanted], Solves region w p) :
    Turn region done wanted (pure none)
  | goes (htrips : ¬ Trips wanted) {next : List (List Progression)} (hnext : Keeps region (done ++ [wanted]) next) :
    Turn region done wanted (pure (some next))

theorem solveAxis_turn (h : Keeps region done allowed) (hoffsets : ∀ part ∈ wanted.1.offsets, Fits part)
    (hlen : wanted.1.form.coeffs.length ≤ region.length) :
    Turn region done wanted (solveAxis wanted.1 wanted.2 allowed) := by
  have hparts := @fits_anyHas _ hoffsets
  unfold solveAxis
  cases hbinders : axisBinders wanted.1 with
  | nil =>
    have hno : ∀ binder, axisBinders wanted.1 ≠ [binder] := fun binder hb => by
      rw [hbinders] at hb
      cases hb
    have htrips : ¬ Trips wanted := fun ⟨_, binder, hb, _⟩ => hno binder hb
    simp only
    by_cases hi : IsI64 (wanted.2 - wanted.1.form.constant)
    · have haccepts : Accepts wanted := ⟨fun _ => hi, fun binder hb => absurd hb (hno binder)⟩
      obtain ⟨hit, hrun, hhit⟩ := anyContains_spec hoffsets hi
      rw [tried_eq hi, pure_bind, hrun, pure_bind]
      cases hit with
      | true => exact .goes htrips (h.skip haccepts (fun p => ⟨fun _ => hhit.1 rfl, fun b hb => absurd hb (hno b)⟩) hno)
      | false =>
        refine .stops haccepts htrips fun ⟨p, hp⟩ => ?_
        exact Bool.false_ne_true (hhit.2 ((hp wanted (by simp)).1 hbinders))
    · have hrefused : tried (wanted.2 - wanted.1.form.constant) = throw () := by
        unfold tried
        rw [show checkedI64 (wanted.2 - wanted.1.form.constant) = none from if_neg hi]
      rw [hrefused]
      exact .refuses fun haccepts => hi (haccepts.1 hbinders)
  | cons binder more =>
    cases more with
    | cons binder' more =>
      have hno : ∀ b, axisBinders wanted.1 ≠ [b] := fun b hb => by
        rw [hbinders] at hb
        cases hb
      have hnil : axisBinders wanted.1 ≠ [] := fun hb => by
        rw [hbinders] at hb
        cases hb
      have htrips : ¬ Trips wanted := fun ⟨_, b, hb, _⟩ => hno b hb
      exact .goes htrips (h.skip ⟨fun hb => absurd hb hnil, fun b hb => absurd hb (hno b)⟩
        (fun p => ⟨fun hb => absurd hb hnil, fun b hb => absurd hb (hno b)⟩) hno)
    | nil =>
      have hnil : axisBinders wanted.1 ≠ [] := fun hb => by
        rw [hbinders] at hb
        cases hb
      have honly : ∀ b, axisBinders wanted.1 = [b] → b = binder := fun b hb =>
        (List.cons.inj (hbinders.symm.trans hb)).1.symm
      simp only
      by_cases hi : IsI64 (wanted.2 - wanted.1.form.constant)
      swap
      · have hrefused : tried (wanted.2 - wanted.1.form.constant) = throw () := by
          unfold tried
          rw [show checkedI64 (wanted.2 - wanted.1.form.constant) = none from if_neg hi]
        rw [hrefused]
        exact .refuses fun haccepts => hi (haccepts.2 binder hbinders).1
      rw [tried_eq hi, pure_bind]
      rcases offsetsOf_cases hoffsets with ⟨offsets, hrun, hmem⟩ | hrefused
      swap
      · rw [hrefused]
        refine .refuses fun haccepts => ?_
        obtain ⟨offsets, hrun⟩ := (haccepts.2 binder hbinders).2
        exact nomatch Option.some.inj (hrefused.symm.trans hrun)
      have haccepts : Accepts wanted := ⟨fun hb => absurd hb hnil, fun b _ => ⟨hi, offsets, hrun⟩⟩
      rw [hrun, pure_bind]
      obtain ⟨hbelow, hscale⟩ := axisBinders_single hbinders
      by_cases hleast : ∃ o ∈ offsets, target wanted - o = -i64Limit ∧ wanted.1.form.scale binder = -1
      · obtain ⟨o, ho, hleast, hminus⟩ := hleast
        have hrun : quotients (wanted.1.form.scale binder) (wanted.2 - wanted.1.form.constant) offsets = ExceptT.mk none :=
          quotients_trip ho hleast hminus
        rw [hrun]
        refine .trips ⟨haccepts, binder, hbinders, hminus, ?_⟩
        rw [← hmem, show target wanted + i64Limit = o by omega]
        exact ho
      · have htrips : ¬ Trips wanted := by
          rintro ⟨-, b, hb, hminus, hany⟩
          obtain rfl := honly b hb
          exact hleast ⟨_, (hmem _).2 hany, by omega, hminus⟩
        have hsafe : ∀ o ∈ offsets, ¬ (target wanted - o = -i64Limit ∧ wanted.1.form.scale binder = -1) :=
          fun o ho hbad => hleast ⟨o, ho, hbad.1, hbad.2⟩
        obtain ⟨values, hquotients, hvi, hvalues⟩ := quotients_spec hscale hsafe
        have hlt : binder < region.length := by omega
        have hlt' : binder < allowed.length := h.length ▸ hlt
        have hregion : region[binder]? = some region[binder] := List.getElem?_eq_getElem hlt
        have hcurrent : allowed[binder]? = some allowed[binder] := List.getElem?_eq_getElem hlt'
        obtain ⟨reached, hreached, hfits, hany⟩ := reachedOf_spec (h.fits _ (List.getElem_mem hlt')) hvi
        have hleft : ∀ v, AnyHas reached v ↔ AnyHas allowed[binder] v ∧
            IsI64 (term wanted binder v) ∧ AnyHas wanted.1.offsets (target wanted - term wanted binder v) := fun v => by
          rw [hany v, hvalues v, hmem, and_comm]
          rfl
        unfold target at hquotients
        rw [hquotients, pure_bind, hcurrent]
        simp only
        rw [hreached, pure_bind]
        by_cases hsome : reached = []
        · rw [if_pos hsome]
          refine .stops haccepts htrips fun ⟨p, hp⟩ => ?_
          obtain ⟨⟨values', hvalues', hin⟩, hfound⟩ := (hp wanted (by simp)).2 binder hbinders
          have hold := (h.mem binder values' _ hvalues' hcurrent (p binder)).2
            ⟨hin, fun w hw hb => ((hp w (by simp [hw])).2 binder hb).2⟩
          obtain ⟨part, hpart, -⟩ := (hleft (p binder)).2 ⟨hold, hfound⟩
          rw [hsome] at hpart
          cases hpart
        · rw [if_neg hsome]
          exact .goes htrips (h.narrow haccepts hbinders hregion hcurrent hfits hsome hleft)

/-! ## The run -/

def ComesFrom (region : IndexBox) (done rest : List Wanted) (wanted : Wanted) : Prop :=
  ∃ pre post, rest = pre ++ wanted :: post ∧ Passes region (done ++ pre)

theorem comesFrom_cons {w : Wanted} : ComesFrom region done (wanted :: rest) w ↔
    (w = wanted ∧ Passes region done) ∨ ComesFrom region (done ++ [wanted]) rest w := by
  constructor
  · rintro ⟨pre, post, hsplit, hpasses⟩
    cases pre with
    | nil =>
      obtain ⟨rfl, -⟩ := List.cons.inj hsplit
      exact .inl ⟨rfl, by simpa using hpasses⟩
    | cons first pre =>
      obtain ⟨rfl, hrest⟩ := List.cons.inj hsplit
      exact .inr ⟨pre, post, hrest, by simpa using hpasses⟩
  · rintro (⟨rfl, hpasses⟩ | ⟨pre, post, hrest, hpasses⟩)
    · exact ⟨[], rest, rfl, by simpa using hpasses⟩
    · exact ⟨wanted :: pre, post, by rw [hrest]; rfl, by simpa using hpasses⟩

/-- Whoever is come to later has this axis accepted and solved along with those before it. -/
theorem ComesFrom.passed {w : Wanted} (h : ComesFrom region (done ++ [wanted]) rest w) :
    Accepts wanted ∧ ∃ p, ∀ w ∈ done ++ [wanted], Solves region w p := by
  obtain ⟨pre, post, -, haccepts, p, hp⟩ := h
  exact ⟨haccepts wanted (by simp), p, fun w hw => hp w (List.mem_append_left _ hw)⟩

def SolvedAt (region : IndexBox) (all : List Wanted) (point : List Int) : Prop :=
  BoxHas region point ∧ ∀ wanted ∈ all, Solves region wanted (valueAt point)

theorem forall₂_valueAt {α : Type} {R : α → Int → Prop} {l : List α} {point : List Int} : List.Forall₂ R l point ↔
    l.length = point.length ∧ ∀ binder a, l[binder]? = some a → R a (valueAt point binder) := by
  unfold valueAt
  rw [List.forall₂_iff_get]
  refine and_congr_right fun hlen => ⟨fun h binder a ha => ?_, fun h i hi hi' => ?_⟩
  · obtain ⟨hlt, rfl⟩ := List.getElem?_eq_some_iff.1 ha
    rw [List.getElem?_eq_getElem (hlen ▸ hlt), Option.getD_some]
    exact h binder hlt (hlen ▸ hlt)
  · have := h i _ (List.getElem?_eq_getElem hi)
    rwa [List.getElem?_eq_getElem hi', Option.getD_some] at this

theorem Keeps.has_product (h : Keeps region done allowed) (point : List Int) :
    IndexUnion.Has (IndexUnion.of (product allowed)) point ↔ SolvedAt region done point := by
  rw [has_of, Rumoca.Core.has_product, forall₂_valueAt, SolvedAt, BoxHas, forall₂_valueAt, h.length, and_assoc]
  refine and_congr_right fun _ => ⟨fun hall => ?_, fun hboth binder current hcurrent => ?_⟩
  · have hleft : ∀ binder values, region[binder]? = some values → valueAt point binder ∈ values ∧
        ∀ w ∈ done, axisBinders w.1 = [binder] → IsI64 (term w binder (valueAt point binder)) ∧
          AnyHas w.1.offsets (target w - term w binder (valueAt point binder)) := by
      intro binder values hvalues
      have hlt : binder < allowed.length := h.length ▸ (List.getElem?_eq_some_iff.1 hvalues).1
      have hcurrent := List.getElem?_eq_getElem hlt
      exact (h.mem binder values _ hvalues hcurrent _).1 (hall binder _ hcurrent)
    refine ⟨fun binder values hvalues => (hleft binder values hvalues).1, fun w hw => ?_⟩
    obtain ⟨p, hp⟩ := h.passes.2
    refine ⟨(hp w hw).1, fun binder hb => ?_⟩
    obtain ⟨values, hvalues, -⟩ := ((hp w hw).2 binder hb).1
    exact ⟨⟨values, hvalues, (hleft binder values hvalues).1⟩, (hleft binder values hvalues).2 w hw hb⟩
  · obtain ⟨hin, hsolves⟩ := hboth
    have hlt : binder < region.length := h.length ▸ (List.getElem?_eq_some_iff.1 hcurrent).1
    have hvalues := List.getElem?_eq_getElem hlt
    exact (h.mem binder _ current hvalues hcurrent _).2
      ⟨hin binder _ hvalues, fun w hw hb => ((hsolves w hw).2 binder hb).2⟩

def bound : SetAnswer → IndexUnion
  | .exact set => set
  | .superset set => set

/-- What a run gives: a panic at an axis it comes to, a refusal of one, or the points at which all are solved. -/
inductive Run (region : IndexBox) (done rest : List Wanted) (exact : Bool) : Checked SetAnswer → Prop where
  | trips (w : Wanted) (hcomes : ComesFrom region done rest w) (htrips : Trips w) : Run region done rest exact (ExceptT.mk none)
  | refuses (hnone : ∀ w, ComesFrom region done rest w → ¬ Trips w) (w : Wanted) (hcomes : ComesFrom region done rest w)
      (hrefuses : ¬ Accepts w) : Run region done rest exact (throw ())
  | answers (hall : ∀ w, ComesFrom region done rest w → Accepts w ∧ ¬ Trips w) (answer : SetAnswer)
      (hset : ∀ point, IndexUnion.Has (bound answer) point ↔ SolvedAt region (done ++ rest) point)
      (hexact : ∀ set, answer = .exact set → (∀ point, ¬ SolvedAt region (done ++ rest) point) ∨
        exact = true ∧ ∀ w ∈ rest, (axisBinders w.1).length ≤ 1) : Run region done rest exact (pure answer)

theorem solveAxes_run {exact : Bool} (hrest : ∀ w ∈ rest, (∀ part ∈ w.1.offsets, Fits part) ∧
    w.1.form.coeffs.length ≤ region.length) (h : Keeps region done allowed) :
    Run region done rest exact (solveAxes rest allowed exact) := by
  induction rest generalizing done allowed exact with
  | nil =>
    have hnone : ∀ w, ¬ ComesFrom region done [] w := fun w ⟨pre, post, hsplit, _⟩ => by simp at hsplit
    rw [solveAxes]
    refine .answers (fun w hw => absurd hw (hnone w)) _ (fun point => ?_) fun set hset => .inr ⟨?_, by simp⟩
    · rw [List.append_nil, ← h.has_product point]
      cases exact <;> rfl
    · cases exact with
      | true => rfl
      | false => cases hset
  | cons wanted rest ih =>
    obtain ⟨hoffsets, hlen⟩ := hrest wanted (by simp)
    have hturn := solveAxis_turn h hoffsets hlen
    obtain ⟨axis, value⟩ := wanted
    rw [solveAxes]
    generalize hx : solveAxis axis value allowed = x at hturn ⊢
    cases hturn with
    | trips htrips => exact .trips (axis, value) (comesFrom_cons.2 (.inl ⟨rfl, h.passes⟩)) htrips
    | refuses hrefuses =>
      refine .refuses (fun w hw htrips => ?_) (axis, value) (comesFrom_cons.2 (.inl ⟨rfl, h.passes⟩)) hrefuses
      rcases comesFrom_cons.1 hw with ⟨rfl, -⟩ | hlater
      · exact hrefuses htrips.1
      · exact hrefuses hlater.passed.1
    | stops haccepts htrips hnone =>
      have hsolved : ∀ point, ¬ SolvedAt region (done ++ (axis, value) :: rest) point := fun point hpoint =>
        hnone ⟨valueAt point, fun w hw => hpoint.2 w (by
          rcases List.mem_append.1 hw with hw | hw
          · exact List.mem_append_left _ hw
          · exact List.mem_append_right _ (List.mem_singleton.1 hw ▸ List.mem_cons_self))⟩
      refine .answers (fun w hw => ?_) (.exact []) (fun point => iff_of_false not_has_nil (hsolved point))
        fun set _ => .inl hsolved
      rcases comesFrom_cons.1 hw with ⟨rfl, -⟩ | hlater
      · exact ⟨haccepts, htrips⟩
      · exact absurd hlater.passed.2 hnone
    | @goes htrips next hnext =>
      have hrun : Run region (done ++ [(axis, value)]) rest (exact && decide ((axisBinders axis).length ≤ 1))
          (solveAxes rest next _) := ih (fun w hw => hrest w (by simp [hw])) hnext
      rw [pure_bind]
      simp only
      generalize solveAxes rest next (exact && decide ((axisBinders axis).length ≤ 1)) = y at hrun ⊢
      have haccepts : Accepts (axis, value) := hnext.passes.1 _ (by simp)
      have hsame : ∀ point, SolvedAt region (done ++ [(axis, value)] ++ rest) point ↔
          SolvedAt region (done ++ (axis, value) :: rest) point := fun point => by rw [List.append_assoc]; rfl
      cases hrun with
      | trips w hcomes htrips => exact .trips w (comesFrom_cons.2 (.inr hcomes)) htrips
      | refuses hnone w hcomes hrefuses =>
        refine .refuses (fun w' hw' => ?_) w (comesFrom_cons.2 (.inr hcomes)) hrefuses
        rcases comesFrom_cons.1 hw' with ⟨rfl, -⟩ | hlater
        · exact htrips
        · exact hnone w' hlater
      | answers hall answer hset hexact =>
        refine .answers (fun w hw => ?_) answer (fun point => (hset point).trans (hsame point)) fun set heq => ?_
        · rcases comesFrom_cons.1 hw with ⟨rfl, -⟩ | hlater
          · exact ⟨haccepts, htrips⟩
          · exact hall w hlater
        · rcases hexact set heq with hnone | ⟨hboth, hless⟩
          · exact .inl fun point hpoint => hnone point ((hsame point).2 hpoint)
          · rw [Bool.and_eq_true, decide_eq_true_iff] at hboth
            refine .inr ⟨hboth.1, fun w hw => ?_⟩
            rcases List.mem_cons.1 hw with rfl | hw
            · exact hboth.2
            · exact hless w hw

/-! ## Against the points that name the index -/

theorem namedAt_iff {axis : IndexAxis} {p : Nat → Int} {x : Int} :
    axis.NamedAt p x ↔ AnyHas axis.offsets (x - axis.form.value p) := by
  constructor
  · rintro ⟨offsets, hoffsets, o, ho, rfl⟩
    exact ⟨offsets, hoffsets, by rwa [add_sub_cancel_left]⟩
  · rintro ⟨offsets, hoffsets, ho⟩
    exact ⟨offsets, hoffsets, _, ho, by omega⟩

theorem rest_of_nil {p : Nat → Int} (h : axisBinders wanted.1 = []) :
    wanted.2 - wanted.1.form.value p = target wanted := by
  rw [value_eq, h, List.map_nil, List.sum_nil, add_zero]
  rfl

theorem rest_of_single {p : Nat → Int} {binder : Nat} (h : axisBinders wanted.1 = [binder]) :
    wanted.2 - wanted.1.form.value p = target wanted - term wanted binder (p binder) := by
  rw [value_eq, h, List.map_singleton, List.sum_singleton, target, term]
  omega

/-- The product of the coefficient and the value is an `i64`, where the axis is over one binder. -/
def InLimits (wanted : Wanted) (point : List Int) : Prop :=
  ∀ binder, axisBinders wanted.1 = [binder] → IsI64 (term wanted binder (valueAt point binder))

theorem solves_of_named {point : List Int} (hpoint : BoxHas region point)
    (hlen : wanted.1.form.coeffs.length ≤ region.length) (hlimits : InLimits wanted point)
    (h : wanted.1.NamedAt (valueAt point) wanted.2) : Solves region wanted (valueAt point) := by
  rw [namedAt_iff] at h
  refine ⟨fun hb => ?_, fun binder hb => ⟨?_, hlimits binder hb, ?_⟩⟩
  · rwa [rest_of_nil hb] at h
  · have hvalues := List.getElem?_eq_getElem (show binder < region.length by have := (axisBinders_single hb).1; omega)
    exact ⟨_, hvalues, (forall₂_valueAt.1 hpoint).2 binder _ hvalues⟩
  · rwa [rest_of_single hb] at h

theorem named_of_solves {p : Nat → Int} (hless : (axisBinders wanted.1).length ≤ 1) (h : Solves region wanted p) :
    wanted.1.NamedAt p wanted.2 := by
  rw [namedAt_iff]
  match hb : axisBinders wanted.1 with
  | [] =>
    rw [rest_of_nil hb]
    exact h.1 hb
  | [binder] =>
    rw [rest_of_single hb]
    exact (h.2 binder hb).2.2
  | _ :: _ :: _ =>
    rw [hb, List.length_cons, List.length_cons] at hless
    omega

def Applies (axes : List IndexAxis) (region : IndexBox) (index : List Int) : Prop :=
  axes.length = index.length ∧ ∀ axis ∈ axes, axis.form.coeffs.length ≤ region.length

/-- `2 * i + 1`. -/
def oddAxis : IndexAxis := ⟨⟨1, [2]⟩, [.single 0]⟩

end Checked

end Rumoca.Core
