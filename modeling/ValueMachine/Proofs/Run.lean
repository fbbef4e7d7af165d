import ValueMachine.Machine.Exception

/-! What an operation that has returned did before: its steps returned one after the other, and the
ones that cannot return did not take place. -/

namespace ValueMachine.Run

variable {α β γ : Type} {x : Run α} {f : α → Run β} {m m' : Machine} {a : α} {b : β} {e : Exit}

theorem bind_apply (x : Run α) (f : α → Run β) (m : Machine) :
    (x >>= f) m = match x m with
      | .ok a m => f a m
      | .error e m => .error e m := by
  simp only [bind, EStateM.bind]
  cases x m <;> rfl

/-- What an operation goes on with after it has returned. -/
theorem bind_of_ok (h : x m = .ok a m') : (x >>= f) m = f a m' := by rw [bind_apply, h]

theorem bind_ok (h : (x >>= f) m = .ok b m') : ∃ a m₁, x m = .ok a m₁ ∧ f a m₁ = .ok b m' := by
  rw [bind_apply] at h
  cases hx : x m with
  | ok a m₁ => rw [hx] at h; exact ⟨a, m₁, rfl, h⟩
  | error e m₁ => rw [hx] at h; cases h

theorem pure_ok {a' : α} (h : (pure a : Run α) m = .ok a' m') : a' = a ∧ m' = m := by
  cases h
  exact ⟨rfl, rfl⟩

@[simp] theorem look_apply (f : Machine → α) (m : Machine) : look f m = .ok (f m) m := rfl

@[simp] theorem change_apply (f : Machine → Machine) (m : Machine) :
    change f m = .ok () (f m) := rfl

@[simp] theorem modifyGet_apply (f : Machine → α × Machine) (m : Machine) :
    (modifyGet f : Run α) m = .ok (f m).1 (f m).2 := rfl

@[simp] theorem throw_apply (e : Exit) (m : Machine) : (throw e : Run α) m = .error e m := rfl

@[simp] theorem raise_apply (f : Fault) (m : Machine) :
    (raise f : Run α) m = .error .raised (m.setErrorText f.message) := rfl

@[simp] theorem look_bind (g : Machine → α) (f : α → Run β) (m : Machine) :
    (look g >>= f) m = f (g m) m := rfl

@[simp] theorem change_bind (g : Machine → Machine) (f : Unit → Run β) (m : Machine) :
    (change g >>= f) m = f () (g m) := rfl

@[simp] theorem modifyGet_bind (g : Machine → α × Machine) (f : α → Run β) (m : Machine) :
    ((modifyGet g : Run α) >>= f) m = f (g m).1 (g m).2 := rfl

@[simp] theorem pure_apply (a : α) (m : Machine) : (pure a : Run α) m = .ok a m := rfl

@[simp] theorem raise_bind (e : Fault) (f : α → Run β) (m : Machine) :
    ((raise e : Run α) >>= f) m = .error .raised (m.setErrorText e.message) := rfl

@[simp] theorem throw_bind (e : Exit) (f : α → Run β) (m : Machine) :
    ((throw e : Run α) >>= f) m = .error e m := rfl

theorem always_apply (x : Run α) (f : Machine → Machine) (m : Machine) :
    x.always f m = match x m with
      | .ok a m => .ok a (f m)
      | .error e m => .error e (f m) := by
  simp only [always, bind_apply, attempt]
  cases x m <;> rfl

theorem otherwise_apply (x : Run α) (f : Machine → Machine) (m : Machine) :
    x.otherwise f m = match x m with
      | .ok a m => .ok a m
      | .error e m => .error e (f m) := by
  simp only [otherwise, bind_apply, attempt]
  cases x m <;> rfl

/-- The machine after an operation, whatever its outcome. -/
def final (x : Run α) (m : Machine) : Machine :=
  match x m with
  | .ok _ m' => m'
  | .error _ m' => m'

theorem final_of_error (h : x m = .error e m') : x.final m = m' := by rw [final, h]

variable {Q : α → Machine → Prop}

/-- An operation returns, and what it returns is right. -/
def Yields (x : Run α) (m : Machine) (Q : α → Machine → Prop) : Prop :=
  match x m with
  | .ok a m' => Q a m'
  | .error _ _ => False

instance [∀ a m, Decidable (Q a m)] : Decidable (x.Yields m Q) := by
  unfold Yields
  cases x m <;> infer_instance

theorem Yields.exists_ok (h : x.Yields m Q) : ∃ a m', x m = .ok a m' ∧ Q a m' := by
  unfold Yields at h
  cases hr : x m with
  | ok a m' => exact ⟨a, m', rfl, by rwa [hr] at h⟩
  | error e m' => rw [hr] at h; cases h

theorem Yields.get {f : Machine → Run α} (hf : (f m).Yields m Q) :
    (MonadState.get >>= f).Yields m Q := hf

theorem Yields.bind {f : β → Run α} {x : Run β} (hx : x m = .ok b m') (hf : (f b).Yields m' Q) :
    (x >>= f).Yields m Q := by
  rwa [Yields, bind_of_ok hx]

theorem Yields.ite {c : Prop} [Decidable c] {y : Run α} (hx : x.Yields m Q) (hy : y.Yields m Q) :
    (if c then x else y).Yields m Q := by
  split
  · exact hx
  · exact hy

/-- An operation ends with an exception that has been raised, and leaves a right state. -/
def Raises (x : Run α) (m : Machine) (Q : Machine → Prop) : Prop :=
  match x m with
  | .error .raised m' => Q m'
  | _ => False

instance {Q : Machine → Prop} [∀ m, Decidable (Q m)] : Decidable (x.Raises m Q) := by
  unfold Raises
  split <;> infer_instance

theorem Raises.exists_error {Q : Machine → Prop} (h : x.Raises m Q) :
    ∃ m', x m = .error .raised m' ∧ Q m' := by
  unfold Raises at h
  split at h
  next m' hr => exact ⟨m', hr, h⟩
  next => cases h

/-- An invariant of a loop that has come to its end. The steps that are left belong to it. -/
theorem forM_ok {xs : List γ} {step : γ → Run Unit} (I : List γ → Machine → Prop)
    (hstep : ∀ c rest m m', I (c :: rest) m → step c m = .ok () m' → I rest m')
    (hm : I xs m) (h : xs.forM step m = .ok () m') : I [] m' := by
  induction xs generalizing m with
  | nil =>
    obtain ⟨-, rfl⟩ := pure_ok h
    exact hm
  | cons c rest ih =>
    obtain ⟨⟨⟩, m₁, hc, hrest⟩ := bind_ok h
    exact ih (hstep c rest m m₁ hm hc) hrest

end ValueMachine.Run
