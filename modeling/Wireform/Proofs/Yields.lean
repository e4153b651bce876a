/-!
# Steps with a state that may fail

What a step yields: from one state, a result and another state. A sequence of steps yields what its parts
yield one after the other, so a run is taken apart and put together by rewriting.
-/
namespace Wireform

variable {ε σ α β : Type}

/-- From the state `p` the step yields the result `a` and leaves the state `q`. -/
def Yields (x : ExceptT ε (StateM σ) α) (p : σ) (a : α) (q : σ) : Prop :=
  x.run.run p = (.ok a, q)

@[simp] theorem yields_pure {p q : σ} {a b : α} :
    Yields (pure a : ExceptT ε (StateM σ) α) p b q ↔ a = b ∧ p = q := by
  change ((Except.ok a : Except ε α), p) = (Except.ok b, q) ↔ _
  simp

@[simp] theorem yields_throw {p q : σ} {e : ε} {b : α} :
    ¬ Yields (throw e : ExceptT ε (StateM σ) α) p b q := by
  change ¬ ((Except.error e : Except ε α), p) = (Except.ok b, q)
  simp

theorem run_bind (x : ExceptT ε (StateM σ) α) (f : α → ExceptT ε (StateM σ) β) (p : σ) :
    (x >>= f).run.run p =
      match x.run.run p with
      | (.ok a, r) => (f a).run.run r
      | (.error e, r) => (.error e, r) := by
  simp only [ExceptT.run_bind, StateT.run_bind]
  cases h : x.run.run p with
  | mk result r => cases result <;> rfl

@[simp] theorem yields_bind {x : ExceptT ε (StateM σ) α} {f : α → ExceptT ε (StateM σ) β}
    {p q : σ} {b : β} :
    Yields (x >>= f) p b q ↔ ∃ a r, Yields x p a r ∧ Yields (f a) r b q := by
  unfold Yields
  rw [run_bind]
  cases h : x.run.run p with
  | mk result r =>
      cases result with
      | ok a =>
          constructor
          · intro hb
            exact ⟨a, r, rfl, hb⟩
          · rintro ⟨_, _, heq, hb⟩
            cases heq
            exact hb
      | error e =>
          constructor
          · intro hb
            cases hb
          · rintro ⟨_, _, heq, _⟩
            cases heq

@[simp] theorem yields_get {p q a : σ} :
    Yields (get : ExceptT ε (StateM σ) σ) p a q ↔ p = a ∧ p = q := by
  change ((Except.ok p : Except ε σ), p) = (Except.ok a, q) ↔ _
  simp

@[simp] theorem yields_modify {p q : σ} {f : σ → σ} {a : PUnit} :
    Yields (modify f : ExceptT ε (StateM σ) PUnit) p a q ↔ f p = q := by
  change ((Except.ok PUnit.unit : Except ε PUnit), f p) = (Except.ok a, q) ↔ _
  simp

/-- From the state `p` the step fails with `e`. -/
def Fails (x : ExceptT ε (StateM σ) α) (p : σ) (e : ε) : Prop :=
  (x.run.run p).1 = .error e

@[simp] theorem fails_pure {p : σ} {e : ε} {a : α} : ¬ Fails (pure a : ExceptT ε (StateM σ) α) p e :=
  nofun

@[simp] theorem fails_throw {p : σ} {e e' : ε} :
    Fails (throw e : ExceptT ε (StateM σ) α) p e' ↔ e = e' := by
  change (Except.error e : Except ε α) = .error e' ↔ _
  simp

@[simp] theorem fails_bind {x : ExceptT ε (StateM σ) α} {f : α → ExceptT ε (StateM σ) β}
    {p : σ} {e : ε} :
    Fails (x >>= f) p e ↔ Fails x p e ∨ ∃ a r, Yields x p a r ∧ Fails (f a) r e := by
  unfold Fails Yields
  rw [run_bind]
  cases h : x.run.run p with
  | mk result r =>
      cases result with
      | ok a =>
          constructor
          · intro he
            exact .inr ⟨a, r, rfl, he⟩
          · rintro (he | ⟨_, _, heq, he⟩)
            · cases he
            · cases heq
              exact he
      | error e =>
          constructor
          · intro he
            cases he
            exact .inl rfl
          · rintro (he | ⟨_, _, heq, _⟩)
            · cases he
              rfl
            · cases heq

theorem fails_bind_pure {x : ExceptT ε (StateM σ) α} {f : α → β} {p : σ} {e : ε} :
    Fails (x >>= fun a => pure (f a)) p e ↔ Fails x p e := by
  simp only [fails_bind, fails_pure, and_false, exists_false, or_false]

@[simp] theorem fails_get {p : σ} {e : ε} : ¬ Fails (get : ExceptT ε (StateM σ) σ) p e :=
  nofun

@[simp] theorem fails_modify {p : σ} {f : σ → σ} {e : ε} :
    ¬ Fails (modify f : ExceptT ε (StateM σ) PUnit) p e :=
  nofun

/-! ### Other faults for the faults of a step -/

section

variable {ε' : Type} (f : ε → ε')

theorem run_adapt (x : ExceptT ε (StateM σ) α) (p : σ) :
    (ExceptT.adapt f x).run.run p = ((x.run.run p).1.mapError f, (x.run.run p).2) := rfl

theorem adapt_bind (x : ExceptT ε (StateM σ) α) (g : α → ExceptT ε (StateM σ) β) :
    ExceptT.adapt f (x >>= g) = ExceptT.adapt f x >>= fun a => ExceptT.adapt f (g a) := by
  apply ExceptT.ext
  apply StateT.ext
  intro p
  rw [run_adapt, run_bind, run_bind, run_adapt]
  cases x.run.run p with
  | mk result r => cases result <;> rfl

end

theorem bind_eq_ok {x : Except ε α} {f : α → Except ε β} {b : β} :
    x >>= f = .ok b ↔ ∃ a, x = .ok a ∧ f a = .ok b := by
  cases x <;> simp [bind, Except.bind]

theorem map_eq_ok {f : α → β} {x : Except ε α} {b : β} :
    x.map f = .ok b ↔ ∃ a, x = .ok a ∧ f a = b := by
  cases x <;> simp [Except.map]

theorem map_eq_error {f : α → β} {x : Except ε α} {e : ε} : x.map f = .error e ↔ x = .error e := by
  cases x <;> simp [Except.map]

theorem pure_eq_ok {a b : α} : (pure a : Except ε α) = .ok b ↔ a = b := by
  simp [pure, Except.pure]

end Wireform
