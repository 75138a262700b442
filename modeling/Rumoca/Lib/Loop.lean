import Mathlib.Data.List.Forall2
/-!
# Loops and passes

A `while` loop of the source is a step function that says whether to go on
or to stop, run with a fuel. `loop_spec` is the rule its proofs use: an
invariant, a measure that every step lowers, and what holds at the stop. A
step may also answer `none`, which stands for a panic of the source.
-/

namespace Rumoca.Lib

universe u v w

/-- What one turn of a loop says: go on from `s`, or stop with `r`. -/
inductive Ctl (σ : Type u) (ρ : Type v) where
  | next (s : σ)
  | done (r : ρ)
deriving Repr

variable {σ : Type u} {ρ : Type v}

/-- Run `step` for at most `fuel` turns. `none`: a turn panicked, or the fuel ran out. -/
def loop (step : σ → Option (Ctl σ ρ)) : (fuel : Nat) → σ → Option ρ
  | 0, _ => none
  | n + 1, s =>
    match step s with
    | none => none
    | some (.next s') => loop step n s'
    | some (.done r) => some r

/-- A loop whose steps keep `Inv` and lower `meas`, from a state satisfying
`Inv` with enough fuel, stops without a panic in a result satisfying `Post`.
The ghost `g` is what the proof knows beside the state. -/
theorem loop_ghost {γ : Type w} (step : σ → Option (Ctl σ ρ)) (Inv : γ → σ → Prop) (meas : γ → σ → Nat)
    (Post : ρ → Prop)
    (h : ∀ g s, Inv g s →
      (∃ g' s', step s = some (.next s') ∧ Inv g' s' ∧ meas g' s' < meas g s) ∨
      (∃ r, step s = some (.done r) ∧ Post r)) :
    ∀ (n : Nat) (g : γ) (s : σ), Inv g s → meas g s < n → ∃ r, loop step n s = some r ∧ Post r := by
  intro n
  induction n with
  | zero => intro g s _ hm; omega
  | succ n ih =>
    intro g s hs hm
    rcases h g s hs with ⟨g', s', he, hi, hlt⟩ | ⟨r, he, hp⟩
    · obtain ⟨r, hr, hp⟩ := ih g' s' hi (by omega)
      exact ⟨r, by simp only [loop, he, hr], hp⟩
    · exact ⟨r, by simp only [loop, he], hp⟩

theorem loop_spec (step : σ → Option (Ctl σ ρ)) (Inv : σ → Prop) (meas : σ → Nat) (Post : ρ → Prop)
    (h : ∀ s, Inv s →
      (∃ s', step s = some (.next s') ∧ Inv s' ∧ meas s' < meas s) ∨
      (∃ r, step s = some (.done r) ∧ Post r))
    (n : Nat) (s : σ) (hs : Inv s) (hn : meas s < n) : ∃ r, loop step n s = some r ∧ Post r :=
  loop_ghost step (fun _ : Unit => Inv) (fun _ => meas) Post
    (fun _ s hs => (h s hs).imp (fun ⟨s', hs'⟩ => ⟨(), s', hs'⟩) id) n () s hs hn

theorem loop_inv (step : σ → Option (Ctl σ ρ)) (Inv : σ → Prop) (Post : ρ → Prop)
    (hnext : ∀ s s', Inv s → step s = some (.next s') → Inv s')
    (hdone : ∀ s r, Inv s → step s = some (.done r) → Post r) :
    ∀ (n : Nat) (s : σ) (r : ρ), Inv s → loop step n s = some r → Post r := by
  intro n
  induction n with
  | zero => intro s r _ hr; cases hr
  | succ n ih =>
    intro s r hs hr
    cases he : step s with
    | none => simp only [loop, he] at hr; cases hr
    | some c =>
      cases c with
      | next s' =>
        simp only [loop, he] at hr
        exact ih s' r (hnext s s' hs he) hr
      | done r' =>
        simp only [loop, he, Option.some.injEq] at hr
        exact hr ▸ hdone s r' hs he

/-! ## Computations that may fail

`Fallible` adds an error text to the panics of `Option`.
-/

/-- A panic (`none`), an error, or a result. -/
abbrev Fallible := ExceptT String Option

/-- `none` is a panic. -/
def orPanic {α : Type} (x : Option α) : Fallible α := ExceptT.mk (x.map .ok)

/-- `ok_or`. -/
def orError {α : Type} (x : Option α) (message : String) : Fallible α :=
  match x with
  | some a => pure a
  | none => throw message

@[simp] theorem orPanic_some {α : Type} (a : α) : orPanic (some a) = pure a := rfl

@[simp] theorem orError_some {α : Type} (a : α) (message : String) : orError (some a) message = pure a := rfl

/-- A turn that may fail, as a turn of `loop`: an error is a stop. -/
def turn {σ ρ : Type} (step : σ → Fallible (Ctl σ ρ)) (s : σ) : Option (Ctl σ (Except String ρ)) :=
  match (step s).run with
  | none => none
  | some (.error message) => some (.done (.error message))
  | some (.ok (.next s')) => some (.next s')
  | some (.ok (.done r)) => some (.done (.ok r))

def loopFallible {σ ρ : Type} (step : σ → Fallible (Ctl σ ρ)) (fuel : Nat) (s : σ) : Fallible ρ :=
  ExceptT.mk (loop (turn step) fuel s)

theorem loopFallible_ghost {γ σ ρ : Type} (step : σ → Fallible (Ctl σ ρ)) (Inv : γ → σ → Prop) (meas : γ → σ → Nat)
    (Post : ρ → Prop)
    (h : ∀ g s, Inv g s →
      (∃ g' s', step s = pure (.next s') ∧ Inv g' s' ∧ meas g' s' < meas g s) ∨
      (∃ r, step s = pure (.done r) ∧ Post r))
    (n : Nat) (g : γ) (s : σ) (hs : Inv g s) (hn : meas g s < n) :
    ∃ r, loopFallible step n s = pure r ∧ Post r := by
  obtain ⟨r, hr, r', rfl, hpost⟩ := loop_ghost (turn step) Inv meas
    (fun r : Except String ρ => ∃ r', r = .ok r' ∧ Post r')
    (fun g s hs => by
      rcases h g s hs with ⟨g', s', hstep, hs'⟩ | ⟨r, hstep, hr⟩
      · exact .inl ⟨g', s', by rw [turn, hstep]; rfl, hs'⟩
      · exact .inr ⟨.ok r, by rw [turn, hstep]; rfl, r, rfl, hr⟩) n g s hs hn
  exact ⟨r', hr, hpost⟩

/-! ## Passes over a list -/

/-- A pass whose turns do not panic and keep an invariant of the elements passed so far. -/
theorem foldlM_spec {α : Type w} {f : σ → α → Option σ} {l : List α} (Inv : List α → σ → Prop)
    (h : ∀ pre a post s, l = pre ++ a :: post → Inv pre s → ∃ s', f s a = some s' ∧ Inv (pre ++ [a]) s')
    {s : σ} (h0 : Inv [] s) : ∃ s', l.foldlM f s = some s' ∧ Inv l s' := by
  have key : ∀ (post pre : List α) (s : σ), l = pre ++ post → Inv pre s →
      ∃ s', post.foldlM f s = some s' ∧ Inv l s' := by
    intro post
    induction post with
    | nil =>
      intro pre s hl hs
      rw [List.append_nil] at hl
      exact ⟨s, rfl, hl ▸ hs⟩
    | cons a post ih =>
      intro pre s hl hs
      obtain ⟨t, ht, hinv⟩ := h pre a post s hl hs
      obtain ⟨u, hu, hr⟩ := ih (pre ++ [a]) t (by simpa using hl) hinv
      exact ⟨u, by rw [List.foldlM_cons, ht]; exact hu, hr⟩
  exact key l [] s rfl h0

theorem foldlM_inv {α : Type w} {f : σ → α → Option σ} {l : List α} (Inv : List α → σ → Prop)
    (h : ∀ pre a post s s', l = pre ++ a :: post → Inv pre s → f s a = some s' → Inv (pre ++ [a]) s')
    {s r : σ} (h0 : Inv [] s) (hr : l.foldlM f s = some r) : Inv l r := by
  have key : ∀ (post pre : List α) (s : σ), l = pre ++ post → Inv pre s → post.foldlM f s = some r → Inv l r := by
    intro post
    induction post with
    | nil =>
      intro pre s hl hs hr
      rw [List.append_nil] at hl
      obtain rfl := Option.some.inj hr
      exact hl ▸ hs
    | cons a post ih =>
      intro pre s hl hs hr
      rw [List.foldlM_cons] at hr
      obtain ⟨t, ht, hu⟩ := Option.bind_eq_some_iff.1 hr
      exact ih (pre ++ [a]) t (by simpa using hl) (h pre a post s t hl hs ht) hu
  exact key l [] s rfl h0 hr

theorem foldlM_fallible {α σ : Type} {f : σ → α → Fallible σ} {l : List α} (Inv : List α → σ → Prop)
    (h : ∀ pre a post s, l = pre ++ a :: post → Inv pre s → ∃ s', f s a = pure s' ∧ Inv (pre ++ [a]) s')
    {s : σ} (h0 : Inv [] s) : ∃ s', l.foldlM f s = pure s' ∧ Inv l s' := by
  have key : ∀ (post pre : List α) (s : σ), l = pre ++ post → Inv pre s →
      ∃ s', post.foldlM f s = pure s' ∧ Inv l s' := by
    intro post
    induction post with
    | nil =>
      intro pre s hl hs
      rw [List.append_nil] at hl
      exact ⟨s, rfl, hl ▸ hs⟩
    | cons a post ih =>
      intro pre s hl hs
      obtain ⟨t, ht, hinv⟩ := h pre a post s hl hs
      obtain ⟨u, hu, hr⟩ := ih (pre ++ [a]) t (by simpa using hl) hinv
      exact ⟨u, by rw [List.foldlM_cons, ht]; exact hu, hr⟩
  exact key l [] s rfl h0

theorem foldl_inv {α : Type w} {f : σ → α → σ} {l : List α} (Inv : List α → σ → Prop)
    (h : ∀ pre a post s, l = pre ++ a :: post → Inv pre s → Inv (pre ++ [a]) (f s a))
    {s : σ} (h0 : Inv [] s) : Inv l (l.foldl f s) := by
  have key : ∀ (post pre : List α) (s : σ), l = pre ++ post → Inv pre s → Inv l (post.foldl f s) := by
    intro post
    induction post with
    | nil =>
      intro pre s hl hs
      rw [List.append_nil] at hl
      exact hl ▸ hs
    | cons a post ih => exact fun pre s hl hs => ih (pre ++ [a]) _ (by simpa using hl) (h pre a post s hl hs)
  exact key l [] s rfl h0

theorem mapM_eq_some_map {α : Type w} {β : Type u} {f : α → Option β} {g : α → β} {l : List α}
    (h : ∀ a ∈ l, f a = some (g a)) : l.mapM f = some (l.map g) := by
  induction l with
  | nil => rfl
  | cons a l ih =>
    rw [List.mapM_cons, h a (by simp), ih fun b hb => h b (by simp [hb])]
    rfl

theorem mapM_total {α : Type w} {β : Type u} {f : α → Option β} {l : List α} (h : ∀ a ∈ l, ∃ b, f a = some b) :
    ∃ bs, l.mapM f = some bs := by
  induction l with
  | nil => exact ⟨[], rfl⟩
  | cons a l ih =>
    obtain ⟨b, hb⟩ := h a (by simp)
    obtain ⟨bs, hbs⟩ := ih fun c hc => h c (by simp [hc])
    exact ⟨b :: bs, by rw [List.mapM_cons, hb, hbs]; rfl⟩

theorem mapM_spec {α : Type w} {β : Type u} {γ : Type v} {f : α → Option β} {g : α → γ} {r : β → γ} {l : List α}
    (h : ∀ a ∈ l, ∃ b, f a = some b ∧ r b = g a) : ∃ bs, l.mapM f = some bs ∧ bs.map r = l.map g := by
  induction l with
  | nil => exact ⟨[], rfl, rfl⟩
  | cons a l ih =>
    obtain ⟨b, hb, hr⟩ := h a (by simp)
    obtain ⟨bs, hbs, hrs⟩ := ih fun c hc => h c (by simp [hc])
    exact ⟨b :: bs, by rw [List.mapM_cons, hb, hbs]; rfl, by rw [List.map_cons, List.map_cons, hr, hrs]⟩

theorem mapM_map {α : Type w} {β : Type u} {γ : Type u} {f : α → Option β} {g : α → Option γ} {h : β → γ} {l : List α}
    {bs : List β} (hfg : ∀ a ∈ l, ∀ b, f a = some b → g a = some (h b)) (hbs : l.mapM f = some bs) :
    l.mapM g = some (bs.map h) := by
  induction l generalizing bs with
  | nil =>
    obtain rfl := Option.some.inj hbs
    rfl
  | cons a l ih =>
    rw [List.mapM_cons] at hbs ⊢
    obtain ⟨b, hb, hrest⟩ := Option.bind_eq_some_iff.1 hbs
    obtain ⟨cs, hcs, hbs⟩ := Option.bind_eq_some_iff.1 hrest
    obtain rfl := Option.some.inj hbs
    rw [hfg a (by simp) b hb, ih (fun c hc => hfg c (by simp [hc])) hcs]
    rfl

theorem mapM_mem {α : Type w} {β : Type u} {f : α → Option β} {l : List α} {bs : List β} (hbs : l.mapM f = some bs) :
    ∀ b ∈ bs, ∃ a ∈ l, f a = some b := by
  induction l generalizing bs with
  | nil =>
    obtain rfl := Option.some.inj hbs
    intro b hb
    cases hb
  | cons a l ih =>
    rw [List.mapM_cons] at hbs
    obtain ⟨b, hb, hrest⟩ := Option.bind_eq_some_iff.1 hbs
    obtain ⟨cs, hcs, hbs⟩ := Option.bind_eq_some_iff.1 hrest
    obtain rfl := Option.some.inj hbs
    intro c hc
    rcases List.mem_cons.1 hc with rfl | hc
    · exact ⟨a, by simp, hb⟩
    · obtain ⟨d, hd, hdc⟩ := ih hcs c hc
      exact ⟨d, by simp [hd], hdc⟩

theorem mapM_forall {α : Type w} {β : Type u} {f : α → Option β} {l : List α} {bs : List β} (hbs : l.mapM f = some bs) :
    ∀ a ∈ l, ∃ b ∈ bs, f a = some b := by
  induction l generalizing bs with
  | nil =>
    intro a ha
    cases ha
  | cons a l ih =>
    rw [List.mapM_cons] at hbs
    obtain ⟨b, hb, hrest⟩ := Option.bind_eq_some_iff.1 hbs
    obtain ⟨cs, hcs, hbs⟩ := Option.bind_eq_some_iff.1 hrest
    obtain rfl := Option.some.inj hbs
    intro c hc
    rcases List.mem_cons.1 hc with rfl | hc
    · exact ⟨b, by simp, hb⟩
    · obtain ⟨d, hd, hdc⟩ := ih hcs c hc
      exact ⟨d, by simp [hd], hdc⟩

theorem forall₂_mem_left {α β : Type} {R : α → β → Prop} {xs : List α} {ys : List β} (h : List.Forall₂ R xs ys) {x : α}
    (hx : x ∈ xs) : ∃ y ∈ ys, R x y := by
  induction h with
  | nil => cases hx
  | @cons a b _ _ hab _ ih =>
    rcases List.mem_cons.1 hx with rfl | hx
    · exact ⟨b, List.mem_cons_self, hab⟩
    · obtain ⟨y, hy, hxy⟩ := ih hx
      exact ⟨y, List.mem_cons_of_mem b hy, hxy⟩

/-! ## Outcomes -/

/-- A computation that does not panic: a result with `P`, or an error with `Q`. -/
def Outcome {ε α : Type} (x : ExceptT ε Option α) (P : α → Prop) (Q : ε → Prop) : Prop :=
  (∃ a, x = pure a ∧ P a) ∨ ∃ e, x = throw e ∧ Q e

namespace Outcome

variable {ε α β : Type} {x : ExceptT ε Option α} {P P' : α → Prop} {Q Q' : ε → Prop}

theorem pure {a : α} (h : P a) : Outcome (pure a : ExceptT ε Option α) P Q := .inl ⟨a, rfl, h⟩

theorem throw {e : ε} (h : Q e) : Outcome (throw e : ExceptT ε Option α) P Q := .inr ⟨e, rfl, h⟩

theorem mono (hx : Outcome x P Q) (hP : ∀ a, P a → P' a) (hQ : ∀ e, Q e → Q' e) : Outcome x P' Q' := by
  rcases hx with ⟨a, hx, ha⟩ | ⟨e, hx, he⟩
  · exact .inl ⟨a, hx, hP a ha⟩
  · exact .inr ⟨e, hx, hQ e he⟩

theorem bind {f : α → ExceptT ε Option β} {R : β → Prop} (hx : Outcome x P Q) (hf : ∀ a, P a → Outcome (f a) R Q) :
    Outcome (x >>= f) R Q := by
  rcases hx with ⟨a, rfl, ha⟩ | ⟨e, rfl, he⟩
  · exact hf a ha
  · exact .inr ⟨e, rfl, he⟩

/-- A pass each turn of which has an outcome, with an invariant of the elements passed so far. -/
theorem foldlM {σ : Type} {f : σ → α → ExceptT ε Option σ} {l : List α} (Inv : List α → σ → Prop)
    (h : ∀ pre a post s, l = pre ++ a :: post → Inv pre s → Outcome (f s a) (Inv (pre ++ [a])) Q) {s : σ}
    (h0 : Inv [] s) : Outcome (l.foldlM f s) (Inv l) Q := by
  have key : ∀ (post pre : List α) (s : σ), l = pre ++ post → Inv pre s → Outcome (post.foldlM f s) (Inv l) Q := by
    intro post
    induction post with
    | nil =>
      intro pre s hl hs
      rw [List.append_nil] at hl
      exact pure (hl ▸ hs)
    | cons a post ih =>
      intro pre s hl hs
      rw [List.foldlM_cons]
      exact (h pre a post s hl hs).bind fun t ht => ih (pre ++ [a]) t (by simpa using hl) ht
  exact key l [] s rfl h0

/-- `mapM` of functions that each have an outcome: the results are `g` of the elements, up to `r`. -/
theorem mapM {γ : Type} {f : α → ExceptT ε Option β} {g : α → γ} {r : β → γ} {l : List α}
    (h : ∀ a ∈ l, Outcome (f a) (fun b => r b = g a) Q) : Outcome (l.mapM f) (fun bs => bs.map r = l.map g) Q := by
  induction l with
  | nil => exact pure rfl
  | cons a l ih =>
    rw [List.mapM_cons]
    refine (h a (by simp)).bind fun b hb => (ih fun c hc => h c (by simp [hc])).bind fun bs hbs => pure ?_
    rw [List.map_cons, List.map_cons, hb, hbs]

theorem of_pure (hx : Outcome x P Q) {a : α} (h : x = Pure.pure a) : P a := by
  rcases hx with ⟨b, hb, hP⟩ | ⟨e, he, -⟩
  · obtain rfl : b = a := by
      have := hb.symm.trans h
      exact Except.ok.inj (Option.some.inj this)
    exact hP
  · exact nomatch Option.some.inj (he.symm.trans h)

end Outcome

theorem bind_eq_pure {ε α β : Type} {x : ExceptT ε Option α} {f : α → ExceptT ε Option β} {b : β}
    (h : (x >>= f) = pure b) : ∃ a, x = pure a ∧ f a = pure b := by
  match hx : x.run with
  | none =>
    have hbind : (x >>= f) = ExceptT.mk none := by
      change ExceptT.mk (x.run >>= ExceptT.bindCont f) = _
      rw [hx]
      rfl
    exact nomatch hbind.symm.trans h
  | some (.error e) =>
    have hbind : (x >>= f) = throw e := by
      change ExceptT.mk (x.run >>= ExceptT.bindCont f) = _
      rw [hx]
      rfl
    exact nomatch Option.some.inj (hbind.symm.trans h)
  | some (.ok a) =>
    have hbind : (x >>= f) = f a := by
      change ExceptT.mk (x.run >>= ExceptT.bindCont f) = _
      rw [hx]
      rfl
    exact ⟨a, hx, hbind ▸ h⟩

theorem pure_injective {ε α : Type} {a b : α} (h : (pure a : ExceptT ε Option α) = pure b) : a = b :=
  Except.ok.inj (Option.some.inj h)

theorem foldlM_inv_pure {ε α σ : Type} {f : σ → α → ExceptT ε Option σ} {l : List α} (Inv : List α → σ → Prop)
    (h : ∀ pre a post s s', l = pre ++ a :: post → Inv pre s → f s a = pure s' → Inv (pre ++ [a]) s') {s r : σ}
    (h0 : Inv [] s) (hr : l.foldlM f s = pure r) : Inv l r := by
  have key : ∀ (post pre : List α) (s : σ), l = pre ++ post → Inv pre s → post.foldlM f s = pure r → Inv l r := by
    intro post
    induction post with
    | nil =>
      intro pre s hl hs hr
      rw [List.append_nil] at hl
      rw [List.foldlM_nil] at hr
      exact pure_injective hr ▸ hl ▸ hs
    | cons a post ih =>
      intro pre s hl hs hr
      rw [List.foldlM_cons] at hr
      obtain ⟨t, ht, hr⟩ := bind_eq_pure hr
      exact ih (pre ++ [a]) t (by simpa using hl) (h pre a post s t hl hs ht) hr
  exact key l [] s rfl h0 hr

theorem throw_ne_pure {E A : Type} {e : E} {a : A} : (throw e : ExceptT E Option A) ≠ pure a :=
  fun h => nomatch Option.some.inj h

theorem panic_ne_pure {E A : Type} {a : A} : (ExceptT.mk none : ExceptT E Option A) ≠ pure a :=
  fun h => nomatch (show (none : Option (Except E A)) = some (.ok a) from h)

theorem orError_eq_pure {α : Type} {x : Option α} {message : String} {a : α} :
    orError x message = pure a ↔ x = some a := by
  cases x with
  | none => exact iff_of_false throw_ne_pure (by simp)
  | some b => exact ⟨fun h => congrArg some (pure_injective h), fun h => congrArg pure (Option.some.inj h)⟩

theorem orPanic_eq_pure {α : Type} {x : Option α} {a : α} : orPanic x = pure a ↔ x = some a := by
  cases x with
  | none => exact iff_of_false panic_ne_pure (by simp)
  | some b => exact ⟨fun h => congrArg some (pure_injective h), fun h => by rw [h]; rfl⟩

end Rumoca.Lib
