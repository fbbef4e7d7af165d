import ValueMachine.Proofs.Run
import ValueMachine.Host.Failure

/-! Manners of operations: how the machine may change over one that returns, over one that exits or
fails, and over the cleaning up afterwards. A manner is closed under sequences, loops and handlers
once and for all, so that each operation owes only its own steps. -/

namespace ValueMachine

/-- How operations may change the machine. -/
structure Manner where
  returns : Machine → Machine → Prop
  exits : Exit → Machine → Machine → Prop
  fails : Failure → Machine → Machine → Prop
  /-- What is done to the machine on the way out. -/
  cleans : Machine → Machine → Prop
  refl : ∀ m, returns m m
  trans : ∀ {m₁ m₂ m₃}, returns m₁ m₂ → returns m₂ m₃ → returns m₁ m₃
  returns_of_cleans : ∀ {m m'}, cleans m m' → returns m m'
  cleans_refl : ∀ m, cleans m m
  cleans_trans : ∀ {m₁ m₂ m₃}, cleans m₁ m₂ → cleans m₂ m₃ → cleans m₁ m₃
  /-- Host code may give up at once. -/
  gives_up : ∀ m e, e ≠ .raised → exits e m m
  exits_of_returns : ∀ {m₁ m₂ m₃ e}, returns m₁ m₂ → exits e m₂ m₃ → exits e m₁ m₃
  exits_cleans : ∀ {m₁ m₂ m₃ e}, exits e m₁ m₂ → cleans m₂ m₃ → exits e m₁ m₃
  fails_of_returns : ∀ {m₁ m₂ m₃ f}, returns m₁ m₂ → fails f m₂ m₃ → fails f m₁ m₃
  fails_cleans : ∀ {m₁ m₂ m₃ f}, fails f m₁ m₂ → cleans m₂ m₃ → fails f m₁ m₃
  fails_atArgument : ∀ {m₁ m₂ f} i, fails f m₁ m₂ → fails (f.atArgument i) m₁ m₂

/-- A manner that makes no difference between the ends of an operation. -/
def Manner.uniform {R : Machine → Machine → Prop} (refl : ∀ m, R m m)
    (trans : ∀ {m₁ m₂ m₃}, R m₁ m₂ → R m₂ m₃ → R m₁ m₃) : Manner where
  returns := R
  exits _ := R
  fails _ := R
  cleans := R
  refl := refl
  trans := trans
  returns_of_cleans h := h
  cleans_refl := refl
  cleans_trans := trans
  gives_up m _ _ := refl m
  exits_of_returns := trans
  exits_cleans := trans
  fails_of_returns := trans
  fails_cleans := trans
  fails_atArgument _ h := h

variable {M : Manner} {α β γ : Type}

/-- The end of an operation that started in a state. -/
def Manner.Ends (M : Manner) (m : Machine) : EStateM.Result Exit Machine α → Prop
  | .ok _ m' => M.returns m m'
  | .error e m' => M.exits e m m'

theorem Manner.ends_of_returns {m m' : Machine} {r : EStateM.Result Exit Machine α}
    (hm : M.returns m m') (hr : M.Ends m' r) : M.Ends m r := by
  cases r with
  | ok a m₂ => exact M.trans hm hr
  | error e m₂ => exact M.exits_of_returns hm hr

/-- A step may use what the step before it has returned, and in which state. -/
theorem Manner.ends_bind {x : Run α} {f : α → Run β} {m : Machine} (hx : M.Ends m (x m))
    (hf : ∀ a m', x m = .ok a m' → M.Ends m' (f a m')) : M.Ends m ((x >>= f) m) := by
  rw [Run.bind_apply]
  cases hr : x m with
  | ok a m₁ =>
    rw [hr] at hx
    exact M.ends_of_returns hx (hf a m₁ hr)
  | error e m₁ => rw [hr] at hx; exact hx

/-- An operation has a manner. -/
def Run.Moves (M : Manner) (x : Run α) : Prop := ∀ m, M.Ends m (x m)

namespace Run.Moves

variable {x : Run α} {f : α → Run β} {m m' : Machine} {a : α} {e : Exit}

theorem ok (hx : Moves M x) (hr : x m = .ok a m') : M.returns m m' := by
  have h := hx m
  rwa [hr] at h

theorem error (hx : Moves M x) (hr : x m = .error e m') : M.exits e m m' := by
  have h := hx m
  rwa [hr] at h

theorem pure (a : α) : Moves M (Pure.pure a : Run α) := fun m => M.refl m

theorem bind (hx : Moves M x) (hf : ∀ a, Moves M (f a)) : Moves M (x >>= f) :=
  fun m => M.ends_bind (hx m) fun a m' _ => hf a m'

theorem map (hx : Moves M x) (g : α → β) : Moves M (g <$> x) :=
  bind hx fun a => pure (g a)

theorem look (g : Machine → α) : Moves M (Run.look g) := fun m => M.refl m

theorem get : Moves M (MonadState.get : Run Machine) := fun m => M.refl m

theorem change {g : Machine → Machine} (hg : ∀ m, M.returns m (g m)) : Moves M (Run.change g) := hg

theorem modifyGet {g : Machine → α × Machine} (hg : ∀ m, M.returns m (g m).2) :
    Moves M (MonadStateOf.modifyGet g : Run α) := hg

theorem giveUp (he : e ≠ .raised) : Moves M (throw e : Run α) := fun m => M.gives_up m e he

theorem ite {c : Prop} [Decidable c] {y : Run α} (hx : Moves M x) (hy : Moves M y) :
    Moves M (if c then x else y) := by
  split
  · exact hx
  · exact hy

/-- What is done whatever the outcome. -/
theorem always {g : Machine → Machine} (hx : Moves M x) (hg : ∀ m, M.cleans m (g m)) :
    Moves M (x.always g) := by
  intro m
  have hend := hx m
  rw [always_apply]
  cases hr : x m with
  | ok a m₁ =>
    rw [hr] at hend
    exact M.trans hend (M.returns_of_cleans (hg m₁))
  | error e m₁ =>
    rw [hr] at hend
    exact M.exits_cleans hend (hg m₁)

/-- What is done on the way out. -/
theorem otherwise {g : Machine → Machine} (hx : Moves M x) (hg : ∀ m, M.cleans m (g m)) :
    Moves M (x.otherwise g) := by
  intro m
  have hend := hx m
  rw [otherwise_apply]
  cases hr : x m with
  | ok a m₁ => rw [hr] at hend; exact hend
  | error e m₁ =>
    rw [hr] at hend
    exact M.exits_cleans hend (hg m₁)

/-! ### Loops -/

theorem forM_mem {step : γ → Run PUnit} {cs : List γ} (h : ∀ c ∈ cs, Moves M (step c)) :
    Moves M (cs.forM step) := by
  induction cs with
  | nil => exact pure _
  | cons c rest ih =>
    exact bind (h c List.mem_cons_self) fun _ => ih fun c hc => h c (List.mem_cons_of_mem _ hc)

theorem forM {step : γ → Run PUnit} (h : ∀ c, Moves M (step c)) (cs : List γ) :
    Moves M (cs.forM step) :=
  forM_mem fun c _ => h c

theorem mapM {step : γ → Run β} (h : ∀ c, Moves M (step c)) (cs : List γ) :
    Moves M (cs.mapM step) := by
  induction cs with
  | nil => exact pure _
  | cons c rest ih =>
    rw [List.mapM_cons]
    exact bind (h c) fun b => bind ih fun bs => pure (b :: bs)

theorem anyM {step : γ → Run Bool} (h : ∀ c, Moves M (step c)) (cs : List γ) :
    Moves M (cs.anyM step) := by
  induction cs with
  | nil => exact pure _
  | cons c rest ih =>
    refine bind (h c) fun b => ?_
    cases b
    · exact ih
    · exact pure _

theorem findSomeM? {step : γ → Run (Option β)} (h : ∀ c, Moves M (step c)) (cs : List γ) :
    Moves M (cs.findSomeM? step) := by
  induction cs with
  | nil => exact pure _
  | cons c rest ih =>
    refine bind (h c) fun b => ?_
    cases b
    · exact ih
    · exact pure _

end Run.Moves

/-! ### Operations across the boundary -/

/-- The end of an operation across the boundary that started in a state. -/
def Manner.Concludes (M : Manner) (m : Machine) :
    EStateM.Result Exit Machine (Except Failure α) → Prop
  | .ok (.ok _) m' => M.returns m m'
  | .ok (.error f) m' => M.fails f m m'
  | .error e m' => M.exits e m m'

theorem Manner.concludes_of_returns {m m' : Machine}
    {r : EStateM.Result Exit Machine (Except Failure α)} (hm : M.returns m m')
    (hr : M.Concludes m' r) : M.Concludes m r := by
  rcases r with (f | a) | e
  · exact M.fails_of_returns hm hr
  · exact M.trans hm hr
  · exact M.exits_of_returns hm hr

namespace Bridge

variable {x : Bridge α} {f : α → Bridge β}

/-- An operation across the boundary has a manner. -/
def Moves (M : Manner) (x : Bridge α) : Prop := ∀ m, M.Concludes m (x.run m)

theorem bind_apply (x : Bridge α) (f : α → Bridge β) (m : Machine) : (x >>= f).run m =
    match x.run m with
    | .ok (.ok a) m => (f a).run m
    | .ok (.error e) m => .ok (.error e) m
    | .error e m => .error e m := by
  show (x.run >>= ExceptT.bindCont f : Run (Except Failure β)) m = _
  rw [Run.bind_apply]
  rcases x.run m with (_ | _) | _ <;> rfl

theorem ofRun_apply (x : Run α) (m : Machine) : (Bridge.ofRun x).run m =
    match x m with
    | .ok a m => .ok (.ok a) m
    | .error e m => .error e m :=
  Run.bind_apply x _ m

/-- A step may use what the step before it has returned, and in which state. -/
theorem concludes_bind {m : Machine} (hx : M.Concludes m (x.run m))
    (hf : ∀ a m', x.run m = .ok (.ok a) m' → M.Concludes m' ((f a).run m')) :
    M.Concludes m ((x >>= f).run m) := by
  rw [bind_apply]
  cases hr : x.run m with
  | error e m₁ => rw [hr] at hx; exact hx
  | ok ended m₁ =>
    rw [hr] at hx
    cases ended with
    | ok a => exact M.concludes_of_returns hx (hf a m₁ hr)
    | error e => exact hx

theorem Moves.ofRun {x : Run α} (hx : Run.Moves M x) : Moves M (Bridge.ofRun x) := by
  intro m
  have hend := hx m
  rw [ofRun_apply]
  cases hr : x m <;> (rw [hr] at hend; exact hend)

theorem Moves.pure (a : α) : Moves M (Pure.pure a : Bridge α) := fun m => M.refl m

theorem Moves.bind (hx : Moves M x) (hf : ∀ a, Moves M (f a)) : Moves M (x >>= f) :=
  fun m => concludes_bind (hx m) fun a m' _ => hf a m'

theorem Moves.look (g : Machine → α) : Moves M (Bridge.look g) := .ofRun (.look g)

theorem Moves.fail {e : Failure} (he : ∀ m, M.fails e m m) : Moves M (Bridge.fail e : Bridge α) := he

theorem Moves.ite {c : Prop} [Decidable c] {y : Bridge α} (hx : Moves M x) (hy : Moves M y) :
    Moves M (if c then x else y) := by
  split
  · exact hx
  · exact hy

theorem Moves.forM {step : γ → Bridge PUnit} (h : ∀ c, Moves M (step c)) (cs : List γ) :
    Moves M (cs.forM step) := by
  induction cs with
  | nil => exact .pure _
  | cons c rest ih => exact (h c).bind fun _ => ih

theorem Moves.atArgument (i : Nat) (hx : Moves M x) : Moves M (Bridge.atArgument i x) := by
  intro m
  have hend := hx m
  rw [Bridge.atArgument, ExceptT.run_mk, Run.bind_apply]
  cases hr : x.run m with
  | error e m₁ => rw [hr] at hend; exact hend
  | ok ended m₁ =>
    rw [hr] at hend
    cases ended with
    | ok a => exact hend
    | error e => exact M.fails_atArgument i hend

theorem Moves.releasing {vs : List Held} (hx : Moves M x)
    (hd : ∀ m, M.cleans m (m.dropAll vs)) : Moves M (Bridge.releasing vs x) := by
  intro m
  have hend := hx m
  show M.Concludes m (x.run.always (·.dropAll vs) m)
  rw [Run.always_apply]
  cases hr : x.run m with
  | error e m₁ => rw [hr] at hend; exact M.exits_cleans hend (hd m₁)
  | ok ended m₁ =>
    rw [hr] at hend
    cases ended with
    | ok a => exact M.trans hend (M.returns_of_cleans (hd m₁))
    | error e => exact M.fails_cleans hend (hd m₁)

theorem Moves.guarding {vs : List Held} (hx : Moves M x)
    (hd : ∀ m, M.cleans m (m.dropAll vs)) : Moves M (Bridge.guarding vs x) := by
  intro m
  have hend := hx m
  rw [Bridge.guarding, ExceptT.run_mk, Run.bind_apply, Run.otherwise_apply]
  cases hr : x.run m with
  | error e m₁ => rw [hr] at hend; exact M.exits_cleans hend (hd m₁)
  | ok ended m₁ =>
    rw [hr] at hend
    cases ended with
    | ok a => exact hend
    | error e => exact M.fails_cleans hend (hd m₁)

end Bridge

end ValueMachine
