import ValueMachine.Proofs.Calls.Conversions
import ValueMachine.Proofs.Ownership.Release

/-! The stacks of interpreters. An operation that returns keeps them but for temporaries that are
put on top, and one that exits leaves something on top of them at most. Operations on values have
this manner in every interpreter, conversions across interpreters included. -/

namespace ValueMachine

/-- The stacks of an interpreter, each from the bottom to the top, and the floor. -/
structure Stacks where
  values : List Handle
  marks : List Nat
  contexts : List Want
  scopes : List (Option Nat)
  temps : List Handle
  floor : Nat

def Interp.toStacks (i : Interp) : Stacks :=
  ⟨i.stack.toList, i.marks.toList, i.contexts.toList, i.scopes.toList, i.temps.toList, i.floor⟩

namespace Stacks

/-- Only temporaries have come on top. -/
structure Kept (s s' : Stacks) : Prop where
  values : s'.values = s.values
  marks : s'.marks = s.marks
  contexts : s'.contexts = s.contexts
  scopes : s'.scopes = s.scopes
  temps : s.temps <+: s'.temps
  floor : s'.floor = s.floor

/-- Something may have come on top of each. -/
structure Grown (s s' : Stacks) : Prop where
  values : s.values <+: s'.values
  marks : s.marks <+: s'.marks
  contexts : s.contexts <+: s'.contexts
  scopes : s.scopes <+: s'.scopes
  temps : s.temps <+: s'.temps

variable {s s₁ s₂ s₃ : Stacks}

theorem Kept.refl (s : Stacks) : s.Kept s := ⟨rfl, rfl, rfl, rfl, List.prefix_rfl, rfl⟩

theorem Kept.trans (h : s₁.Kept s₂) (h' : s₂.Kept s₃) : s₁.Kept s₃ where
  values := h'.values.trans h.values
  marks := h'.marks.trans h.marks
  contexts := h'.contexts.trans h.contexts
  scopes := h'.scopes.trans h.scopes
  temps := h.temps.trans h'.temps
  floor := h'.floor.trans h.floor

theorem Kept.grown (h : s₁.Kept s₂) : s₁.Grown s₂ where
  values := by rw [h.values]
  marks := by rw [h.marks]
  contexts := by rw [h.contexts]
  scopes := by rw [h.scopes]
  temps := h.temps

theorem Grown.refl (s : Stacks) : s.Grown s := (Kept.refl s).grown

theorem Grown.trans (h : s₁.Grown s₂) (h' : s₂.Grown s₃) : s₁.Grown s₃ :=
  ⟨h.values.trans h'.values, h.marks.trans h'.marks, h.contexts.trans h'.contexts,
    h.scopes.trans h'.scopes, h.temps.trans h'.temps⟩

end Stacks

namespace Machine

variable {m m' m₁ m₂ m₃ : Machine}

/-- The stacks of an interpreter by its number. -/
def stacksOf (m : Machine) (i : InterpId) : Option Stacks :=
  if i = m.here then some m.interp.toStacks
  else (m.others.find? (·.1 = i)).map (·.2.toStacks)

@[simp] theorem stacksOf_here (m : Machine) : m.stacksOf m.here = some m.interp.toStacks := by
  simp [stacksOf]

/-- Another interpreter in focus has the stacks that it had before. -/
theorem stacksOf_focus (m : Machine) (i j : InterpId) :
    (m.focus i).stacksOf j = m.stacksOf j := by
  unfold focus
  split
  · rfl
  next hi =>
    cases hf : m.others.find? (·.1 = i) with
    | none => rfl
    | some found =>
      obtain ⟨k, other⟩ := found
      by_cases hji : j = i
      · subst hji
        simp [stacksOf, hi, hf]
      · by_cases hjh : j = m.here
        · subst hjh
          simp [stacksOf, hji]
        · have hfilter : (fun p : InterpId × Interp => !decide (p.1 = i) && decide (p.1 = j))
              = fun p => decide (p.1 = j) := by
            funext p
            by_cases hp : p.1 = j <;> simp [hp, hji]
          simp [stacksOf, hji, hjh, Ne.symm hjh, List.find?_filter, hfilter]

theorem here_focus (h : (m.stacksOf i).isSome) : (m.focus i).here = i := by
  unfold focus
  split
  next hi => exact hi.symm
  next hi =>
    simp only [stacksOf, hi, if_false, Option.isSome_map] at h
    obtain ⟨found, hf⟩ := Option.isSome_iff_exists.1 h
    simp [hf]

theorem focus_self (h : m.here = i) : m.focus i = m := if_pos h.symm

/-- An interpreter comes into focus and the former one waits, if it is another one. -/
theorem focus_cases (m : Machine) (i : InterpId) : m.focus i = m ∨
    i ≠ m.here ∧ (m.focus i).here = i ∧ ∃ rest, (m.focus i).others = (m.here, m.interp) :: rest := by
  unfold focus
  split
  · exact .inl rfl
  next hi =>
    cases m.others.find? (·.1 = i) with
    | none => exact .inl rfl
    | some found => exact .inr ⟨hi, rfl, _, rfl⟩

/-- The first of those that wait comes into focus as it was left. -/
theorem focus_first {i : InterpId} {interp : Interp} {rest : List (InterpId × Interp)}
    (hi : i ≠ m.here) (ho : m.others = (i, interp) :: rest) :
    (m.focus i).here = i ∧ (m.focus i).interp = interp := by
  simp [focus, hi, ho]

/-- A relation of stacks holds in every interpreter. -/
structure Everywhere (R : Stacks → Stacks → Prop) (m m' : Machine) : Prop where
  here : m'.here = m.here
  each : ∀ {i s}, m.stacksOf i = some s → ∃ s', m'.stacksOf i = some s' ∧ R s s'

namespace Everywhere

variable {R R₁ R₂ R₃ : Stacks → Stacks → Prop}

theorem refl (hR : ∀ s, R s s) (m : Machine) : Everywhere R m m :=
  ⟨rfl, fun {_ s} h => ⟨s, h, hR s⟩⟩

theorem trans (hR : ∀ {s₁ s₂ s₃}, R₁ s₁ s₂ → R₂ s₂ s₃ → R₃ s₁ s₃) (h : Everywhere R₁ m₁ m₂)
    (h' : Everywhere R₂ m₂ m₃) : Everywhere R₃ m₁ m₃ := by
  refine ⟨h'.here.trans h.here, fun hs => ?_⟩
  obtain ⟨s₂, hs₂, hr⟩ := h.each hs
  obtain ⟨s₃, hs₃, hr'⟩ := h'.each hs₂
  exact ⟨s₃, hs₃, hR hr hr'⟩

theorem mono (hR : ∀ {s s'}, R₁ s s' → R₂ s s') (h : Everywhere R₁ m m') : Everywhere R₂ m m' := by
  refine ⟨h.here, fun hs => ?_⟩
  obtain ⟨s', hs', hr⟩ := h.each hs
  exact ⟨s', hs', hR hr⟩

theorem focused (h : Everywhere R m m') : R m.interp.toStacks m'.interp.toStacks := by
  obtain ⟨s', hs', hr⟩ := h.each (stacksOf_here m)
  rw [← h.here, stacksOf_here] at hs'
  cases hs'
  exact hr

/-- A change of the interpreter in focus. -/
theorem of_interp (hR : ∀ s, R s s) (here : m'.here = m.here) (others : m'.others = m.others)
    (h : R m.interp.toStacks m'.interp.toStacks) : Everywhere R m m' := by
  refine ⟨here, fun {i s} hs => ?_⟩
  simp only [stacksOf, here, others] at hs ⊢
  split at hs
  next hi =>
    cases hs
    exact ⟨_, if_pos hi, h⟩
  next hi => exact ⟨s, by rw [if_neg hi]; exact hs, hR s⟩

/-- With another interpreter in focus for a while. -/
theorem focus (i : InterpId) (h : Everywhere R (m.focus i) m') :
    Everywhere R m (m'.focus m.here) := by
  have hback : (m'.stacksOf m.here).isSome := by
    obtain ⟨s', hs', -⟩ := h.each (i := m.here) ((stacksOf_focus m i _).trans (stacksOf_here m))
    rw [hs']
    rfl
  refine ⟨here_focus hback, fun {j s} hs => ?_⟩
  obtain ⟨s', hs', hr⟩ := h.each ((stacksOf_focus m i j).trans hs)
  exact ⟨s', (stacksOf_focus m' m.here j).trans hs', hr⟩

end Everywhere

end Machine

open Machine

namespace Manner

/-- Stacks are kept in every interpreter by what returns, and grow by what exits. -/
def steady : Manner where
  returns := Everywhere Stacks.Kept
  exits _ := Everywhere Stacks.Grown
  fails _ := Everywhere Stacks.Kept
  cleans := Everywhere Stacks.Kept
  refl := .refl .refl
  trans := .trans .trans
  returns_of_cleans h := h
  cleans_refl := .refl .refl
  cleans_trans := .trans .trans
  gives_up m _ _ := .refl .refl m
  exits_of_returns := .trans fun h h' => h.grown.trans h'
  exits_cleans := .trans fun h h' => h.trans h'.grown
  fails_of_returns := .trans .trans
  fails_cleans := .trans .trans
  fails_atArgument _ h := h

/-- What leaves all stacks alone. -/
structure Still (m m' : Machine) : Prop where
  here : m'.here = m.here
  others : m'.others = m.others
  same : m'.interp.toStacks = m.interp.toStacks

namespace Still

variable {m m₁ m₂ m₃ : Machine}

theorem refl (m : Machine) : Still m m := ⟨rfl, rfl, rfl⟩

theorem trans (h : Still m₁ m₂) (h' : Still m₂ m₃) : Still m₁ m₃ :=
  ⟨h'.here.trans h.here, h'.others.trans h.others, h'.same.trans h.same⟩

theorem returns {m m' : Machine} (h : Still m m') : steady.returns m m' :=
  .of_interp .refl h.here h.others (by rw [h.same]; exact .refl _)

theorem global (m : Machine) (s : Sigil) (name : String) : Still m (m.global s name).2 := by
  have h := Fades.global m s name
  obtain ⟨symbols, live, hi⟩ := h.interp
  exact ⟨h.here, h.others, by rw [hi]; rfl⟩

theorem keptByRelease (m : Machine) : KeptByRelease (Still m) fun _ => True where
  records _ _ _ _ _ := trivial
  lower _ _ hm := hm.trans ⟨rfl, rfl, rfl⟩
  strip _ _ hm := hm.trans ⟨rfl, rfl, rfl⟩
  noteFreed _ _ hm := hm.trans ⟨rfl, rfl, rfl⟩
  revive m' name g hm _ _ := hm.trans ((global m' .scalar name).trans ⟨rfl, rfl, rfl⟩)
  unclaim _ _ hm := hm.trans ⟨rfl, rfl, rfl⟩
  touch m' h g hm _ _ := by
    refine hm.trans ?_
    unfold Machine.retain
    split <;> exact ⟨rfl, rfl, rfl⟩
  vacate _ _ hm := hm.trans ⟨rfl, rfl, rfl⟩

theorem release (m : Machine) (h : Handle) : Still m (m.release h) :=
  (keptByRelease m).release h (refl m)

theorem releaseAll (m : Machine) (hs : List Handle) : Still m (m.releaseAll hs) :=
  (keptByRelease m).releaseAll hs (refl m)

theorem retain (m : Machine) (h : Handle) : Still m (m.retain h) := by
  unfold Machine.retain
  split <;> exact ⟨rfl, rfl, rfl⟩

theorem newSub (m : Machine) (name : Option String) (entry : Entry) (file : String)
    (payload : Option Payload) : Still m (m.newSub name entry file payload).2 := by
  cases name with
  | none => exact ⟨rfl, rfl, rfl⟩
  | some n =>
    refine trans ?_ (releaseAll _ _)
    refine ⟨rfl, rfl, ?_⟩
    simp only [updateGlob, onInterp]
    split <;> rfl

theorem replaceScalar (m : Machine) (h : Handle) (former new : Scalar) :
    Still m (m.replaceScalar h former new) := by
  obtain ⟨log, hlog⟩ := ((m.setBody h (.scalar new)).releaseAll former.owned).noteWrite_eq h
  have hset : Still m (m.setBody h (.scalar new)) := ⟨rfl, rfl, rfl⟩
  rw [Machine.replaceScalar, hlog]
  exact hset.trans ((releaseAll _ former.owned).trans ⟨rfl, rfl, rfl⟩)

theorem errorSlot (m : Machine) : Still m m.errorSlot.2 := by
  unfold Machine.errorSlot
  split
  · exact refl m
  · exact (global m .scalar "@").trans ⟨rfl, rfl, rfl⟩

theorem setError (m : Machine) (s : Scalar) : Still m (m.setError s) := by
  unfold Machine.setError
  refine (errorSlot m).trans ?_
  cases hb : m.errorSlot.2.body m.errorSlot.1 with
  | scalar former => simp only [hb]; exact replaceScalar _ _ former s
  | _ => simp only [hb]; exact refl _

end Still

theorem steady_mortal (m : Machine) (h : Handle) : steady.returns m (m.mortal h) := by
  refine .of_interp .refl rfl rfl ⟨rfl, rfl, rfl, rfl, ?_, rfl⟩
  simp [Interp.toStacks, Machine.mortal, onInterp]

theorem steady_setErrorText (m : Machine) (message : String) :
    steady.returns m (m.setErrorText message) := by
  have halloc : Still m (m.alloc (.scalar (.ofText message))).2 := ⟨rfl, rfl, rfl⟩
  exact steady.trans halloc.returns
    (steady.trans (steady_mortal _ _) (Still.setError _ _).returns)

theorem steady_raise (f : Fault) (m : Machine) : steady.exits .raised m (m.setErrorText f.message) :=
  (steady_setErrorText m f.message).mono Stacks.Kept.grown

theorem steady_alloc (m : Machine) (b : Body) : steady.returns m (m.alloc b).2 :=
  Still.returns ⟨rfl, rfl, rfl⟩

theorem steady_stepwise : steady.Stepwise where
  alloc m {b} _ := steady_alloc m b
  retain m h := (Still.retain m h).returns
  mortal := steady_mortal
  global m s name := (Still.global m s name).returns
  setArray _ _ := Still.returns ⟨rfl, rfl, rfl⟩
  setHash _ _ := Still.returns ⟨rfl, rfl, rfl⟩
  name _ _ _ := Still.returns ⟨rfl, rfl, rfl⟩
  releaseAll m hs := (Still.releaseAll m hs).returns
  replaceScalar {m h former new} _ _ := (Still.replaceScalar m h former new).returns
  noteAccess _ _ := Still.returns ⟨rfl, rfl, rfl⟩
  tick _ := Still.returns ⟨rfl, rfl, rfl⟩
  raise m f := steady_raise f m

theorem steady_plain : steady.Plain := steady_stepwise.plain

theorem steady_stores : steady.Stores where
  toPlain := steady_plain
  store h _ hs := steady_stepwise.store h _ hs
  claim m i := by
    unfold Machine.claim
    split <;> exact Still.returns ⟨rfl, rfl, rfl⟩
  attach _ _ _ := Still.returns ⟨rfl, rfl, rfl⟩

theorem steady_drop (m : Machine) (v : Held) : steady.cleans m (m.drop v) := by
  unfold Machine.drop
  split
  · exact .focus v.owner (Still.release _ v.handle).returns
  · exact steady.cleans_refl m

theorem steady_crosses : steady.Crosses where
  toPlain := steady_plain
  fail m _ := .refl .refl m
  drop := steady_drop
  cross {α} i x hx m := by
    have hend := hx (m.focus i)
    simp only [onInterpreter, Run.look_bind, Run.change_bind, Run.always_apply]
    cases hr : x (m.focus i) with
    | ok a m₁ =>
      rw [hr] at hend
      exact Everywhere.focus i hend
    | error e m₁ =>
      rw [hr] at hend
      exact Everywhere.focus i hend

end Manner

end ValueMachine
