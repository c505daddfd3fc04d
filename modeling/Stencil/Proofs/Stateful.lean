/-!
Steps that change a state and may fail, where what a failed step has changed is kept. A step applied to
a state gives its result and the state after it. Of steps without a state only the results count.
-/
namespace Stencil.Stateful

variable {ε σ α β : Type}

/-- A sequence stops at its first failure, with the state at that point. -/
theorem bind_apply (step : ExceptT ε (StateM σ) α) (next : α → ExceptT ε (StateM σ) β) (s : σ) :
    (step >>= next) s = match step s with
      | (.ok a, t) => next a t
      | (.error e, t) => (.error e, t) := by
  show (ExceptT.bindCont next (step s).1) (step s).2 = _
  rcases step s with ⟨result, t⟩
  cases result <;> rfl

@[simp] theorem pure_apply (a : α) (s : σ) : (pure a : ExceptT ε (StateM σ) α) s = (.ok a, s) := rfl

@[simp] theorem throw_apply (e : ε) (s : σ) : (throw e : ExceptT ε (StateM σ) α) s = (.error e, s) := rfl

@[simp] theorem get_apply (s : σ) : (get : ExceptT ε (StateM σ) σ) s = (.ok s, s) := rfl

@[simp] theorem set_apply (t s : σ) : (set t : ExceptT ε (StateM σ) PUnit) s = (.ok ⟨⟩, t) := rfl

@[simp] theorem modify_apply (f : σ → σ) (s : σ) :
    (modify f : ExceptT ε (StateM σ) PUnit) s = (.ok ⟨⟩, f s) := rfl

/-- A sequence after a step that succeeds. -/
theorem bind_ok {step : ExceptT ε (StateM σ) α} {s t : σ} {a : α} (done : step s = (.ok a, t))
    (next : α → ExceptT ε (StateM σ) β) : (step >>= next) s = next a t := by
  rw [bind_apply, done]

/-- A sequence after a step that fails. -/
theorem bind_error {step : ExceptT ε (StateM σ) α} {s t : σ} {e : ε} (failed : step s = (.error e, t))
    (next : α → ExceptT ε (StateM σ) β) : (step >>= next) s = (.error e, t) := by
  rw [bind_apply, failed]

/-- A sequence of steps without a state succeeds exactly if each of them does. -/
theorem bind_eq_ok {step : Except ε α} {next : α → Except ε β} {b : β} :
    step >>= next = .ok b ↔ ∃ a, step = .ok a ∧ next a = .ok b := by
  cases step <;> simp [bind, Except.bind]

/-- A sequence of steps without a state fails where one of them does. -/
theorem bind_eq_error {step : Except ε α} {next : α → Except ε β} {e : ε} :
    step >>= next = .error e ↔ step = .error e ∨ ∃ a, step = .ok a ∧ next a = .error e := by
  cases step <;> simp [bind, Except.bind]

end Stencil.Stateful
