import ValueMachine.Proofs.Custody.Changes

/-! Operations that a custody allows. Each is given handles that are in hand, and those that it hands
o are in hand after it; if it ends without a result it does so in an allowed way, and nothing is
taken out of hand. Sequences, loops and handlers of such operations are such operations. -/

namespace ValueMachine

variable {α β γ : Type} {C : Custody} {held held' : List Handle}

/-- The right end of an operation that hands out the handles in its result. -/
def Custody.Ends (C : Custody) (held : List Handle) (o : α → List Handle) :
    EStateM.Result Exit Machine α → Prop
  | .ok a m => C.Holds (o a ++ held) m
  | .error e m => C.Stops e m ∧ C.Holds held m

theorem Custody.Lawful.ends_mono (hC : C.Lawful) {o : α → List Handle}
    {r : EStateM.Result Exit Machine α} (hsub : held' ⊆ held) (hr : C.Ends held o r) :
    C.Ends held' o r := by
  cases r with
  | error e m => exact ⟨hr.1, hC.mono hsub hr.2⟩
  | ok a m =>
    exact hC.mono (List.append_subset.2 ⟨List.subset_append_left _ _,
      List.subset_append_of_subset_right _ hsub⟩) hr

/-- An operation does what a custody allows, with these handles in hand. -/
def Run.Honours (C : Custody) (held : List Handle) (o : α → List Handle) (x : Run α) : Prop :=
  ∀ m, C.Holds held m → C.Ends held o (x m)

/-- No handle is handed out. -/
def noHandles (_ : α) : List Handle := []

namespace Run.Honours

variable {o : α → List Handle} {o' : β → List Handle} {x : Run α} {f : α → Run β}

variable (hC : C.Lawful)

include hC

theorem widen {w : α → List Handle} (hx : x.Honours C held w)
    (hout : ∀ a, o a ⊆ w a ++ held) : x.Honours C held o := by
  intro m hm
  have hend := hx m hm
  cases hr : x m with
  | ok a m₁ =>
    rw [hr] at hend
    exact hC.mono (List.append_subset.2 ⟨hout a, List.subset_append_right _ _⟩) hend
  | error e m₁ => rw [hr] at hend; exact hend

/-- Handles that are in hand are handed out. -/
theorem pure {a : α} (ha : o a ⊆ held) : (Pure.pure a : Run α).Honours C held o :=
  fun _ hm => hC.mono (List.append_subset.2 ⟨ha, List.Subset.refl held⟩) hm

theorem bind (hx : x.Honours C held o) (hf : ∀ a, (f a).Honours C (o a ++ held) o') :
    (x >>= f).Honours C held o' := by
  intro m hm
  have hend := hx m hm
  rw [bind_apply]
  cases hr : x m with
  | error e m₁ => rw [hr] at hend; exact hend
  | ok a m₁ =>
    rw [hr] at hend
    exact hC.ends_mono (List.subset_append_right _ _) (hf a m₁ hend)

/-- An operation after which nothing more is in hand. -/
theorem andThen (hx : x.Honours C held noHandles) (hf : ∀ a, (f a).Honours C held o') :
    (x >>= f).Honours C held o' :=
  bind hC hx fun a => hf a

omit hC in
theorem look (g : Machine → α) : (Run.look g).Honours C held noHandles := fun _ hm => hm

omit hC in
/-- A reading that finds handles. -/
theorem lookFor {g : Machine → α} (hg : ∀ {m}, C.Holds held m → C.Holds (o (g m) ++ held) m) :
    (Run.look g).Honours C held o := fun _ => hg

/-- A reading that finds handles in the interpreter. -/
theorem lookUp {g : Machine → α} (hg : ∀ m, o (g m) ⊆ m.interp.places) :
    (Run.look g).Honours C held o := by
  intro m hm
  refine hC.mono ?_ (hC.places hm)
  exact List.append_subset.2 ⟨List.subset_append_of_subset_left _ (hg m),
    List.subset_append_right _ _⟩

omit hC in
theorem change {g : Machine → Machine} (hg : ∀ {m}, C.Holds held m → C.Holds held (g m)) :
    (Run.change g).Honours C held noHandles := fun _ => hg

omit hC in
theorem modifyGet {g : Machine → α × Machine}
    (hg : ∀ {m}, C.Holds held m → C.Holds (o (g m).1 ++ held) (g m).2) :
    (MonadStateOf.modifyGet g : Run α).Honours C held o := fun _ => hg

theorem raise (fault : Fault) : (ValueMachine.raise fault : Run α).Honours C held o :=
  fun _ hm => ⟨hC.raised _, hC.setErrorText _ hm⟩

omit hC in
theorem ite {c : Prop} [Decidable c] {y : Run α} (hx : x.Honours C held o)
    (hy : y.Honours C held o) : (if c then x else y).Honours C held o := by
  split
  · exact hx
  · exact hy

omit hC in
/-- What is done whatever the outcome. -/
theorem always {g : Machine → Machine} (hx : x.Honours C held o)
    (hg : ∀ {held' m}, held ⊆ held' → C.Holds held' m → C.Holds held' (g m))
    (hstops : ∀ {e m}, C.Stops e m → C.Stops e (g m)) : (x.always g).Honours C held o := by
  intro m hm
  have hend := hx m hm
  rw [always_apply]
  cases hr : x m with
  | ok a m₁ =>
    rw [hr] at hend
    exact hg (List.subset_append_right _ _) hend
  | error e m₁ =>
    rw [hr] at hend
    exact ⟨hstops hend.1, hg (List.Subset.refl held) hend.2⟩

/-! ### Loops -/

theorem forM_mem {step : γ → Run PUnit} {cs : List γ}
    (h : ∀ c ∈ cs, (step c).Honours C held noHandles) : (cs.forM step).Honours C held noHandles := by
  induction cs with
  | nil => exact pure hC (List.nil_subset _)
  | cons c rest ih =>
    exact andThen hC (h c List.mem_cons_self) fun _ =>
      ih fun c hc => h c (List.mem_cons_of_mem _ hc)

theorem mapM_mem {p : β → List Handle} {step : γ → Run β} {cs : List γ}
    (h : ∀ c ∈ cs, ∀ {held'}, held ⊆ held' → (step c).Honours C held' p) :
    (cs.mapM step).Honours C held (·.flatMap p) := by
  induction cs generalizing held with
  | nil => exact pure hC (List.nil_subset _)
  | cons c rest ih =>
    rw [List.mapM_cons]
    refine bind hC (h c List.mem_cons_self (List.Subset.refl held)) fun b => ?_
    refine bind hC (ih fun c hc _ hsub =>
      h c (List.mem_cons_of_mem _ hc) (List.Subset.trans (List.subset_append_right _ _) hsub)) fun bs => ?_
    refine pure hC ?_
    simp

theorem anyM {step : γ → Run Bool} (h : ∀ c, (step c).Honours C held noHandles) (cs : List γ) :
    (cs.anyM step).Honours C held noHandles := by
  induction cs with
  | nil => exact pure hC (List.nil_subset _)
  | cons c rest ih =>
    refine andThen hC (h c) fun b => ?_
    cases b
    · exact ih
    · exact pure hC (List.nil_subset _)

theorem findSomeM? {step : γ → Run (Option β)} {o' : Option β → List Handle}
    (hnone : o' none = []) (h : ∀ c, (step c).Honours C held o') (cs : List γ) :
    (cs.findSomeM? step).Honours C held o' := by
  induction cs with
  | nil => exact pure hC (by rw [hnone]; exact List.nil_subset _)
  | cons c rest ih =>
    refine bind hC (h c) fun b => ?_
    cases b with
    | none => rw [hnone]; exact ih
    | some b => exact pure hC (List.subset_append_left _ _)

end Run.Honours

end ValueMachine
