import ValueMachine.Proofs.Calls.Evaluation
import ValueMachine.Proofs.Calls.Stacks

/-! The balance of calls within an interpreter. The arguments of a call lie above a mark; a call
takes both off and leaves its results where the arguments began, and when it exits it has not cut
into what lies below. A trap makes an exit a return again. -/

namespace ValueMachine

namespace Stacks

variable {b s s₁ s₂ : Stacks}

/-- With values on top. -/
def topped (b : Stacks) (vs : List Handle) : Stacks := { b with values := b.values ++ vs }

/-- With arguments above a mark. -/
def withArguments (b : Stacks) (args : List Handle) : Stacks :=
  { b with values := b.values ++ args, marks := b.marks ++ [b.values.length] }

/-- A call has left results on top, and maybe temporaries. -/
def Left (n : Nat) (b s : Stacks) : Prop :=
  ∃ results, results.length = n ∧ (b.topped results).Kept s

@[simp] theorem topped_nil (b : Stacks) : b.topped [] = b := by
  rw [topped, List.append_nil]

theorem grown_topped (b : Stacks) (vs : List Handle) : b.Grown (b.topped vs) :=
  ⟨List.prefix_append _ _, List.prefix_rfl, List.prefix_rfl, List.prefix_rfl, List.prefix_rfl⟩

theorem grown_withArguments (b : Stacks) (args : List Handle) : b.Grown (b.withArguments args) :=
  ⟨List.prefix_append _ _, List.prefix_append _ _, List.prefix_rfl, List.prefix_rfl,
    List.prefix_rfl⟩

theorem Kept.topped (h : b.Kept s) (vs : List Handle) : (b.topped vs).Kept (s.topped vs) :=
  ⟨by simp only [Stacks.topped, h.values], h.marks, h.contexts, h.scopes, h.temps, h.floor⟩

theorem Kept.left (h : b.Kept s) (hs : s.Left n s₁) : b.Left n s₁ := by
  obtain ⟨results, hn, hk⟩ := hs
  exact ⟨results, hn, (h.topped results).trans hk⟩

theorem Left.kept (h : b.Left n s) (hs : s.Kept s₁) : b.Left n s₁ := by
  obtain ⟨results, hn, hk⟩ := h
  exact ⟨results, hn, hk.trans hs⟩

theorem Left.grown (h : b.Left n s) : b.Grown s := by
  obtain ⟨results, -, hk⟩ := h
  exact (b.grown_topped results).trans hk.grown

/-- What lies below the values on top is kept where all of it is. -/
theorem Kept.of_topped {vs : List Handle} (h : (b.topped vs).Kept s) :
    ∃ b', b.Kept b' ∧ s = b'.topped vs := by
  refine ⟨{ b with temps := s.temps }, ⟨rfl, rfl, rfl, rfl, h.temps, rfl⟩, ?_⟩
  cases s
  obtain ⟨rfl, rfl, rfl, rfl, -, rfl⟩ := h
  rfl

theorem Kept.of_withArguments {args : List Handle} (h : (b.withArguments args).Kept s) :
    ∃ b', b.Kept b' ∧ s = b'.withArguments args := by
  refine ⟨{ b with temps := s.temps }, ⟨rfl, rfl, rfl, rfl, h.temps, rfl⟩, ?_⟩
  cases s
  obtain ⟨rfl, rfl, rfl, rfl, -, rfl⟩ := h
  rfl

end Stacks

open Stacks

theorem Pile.top?_eq {α : Type} (p : Pile α) : p.top? = p.toList.getLast? := by
  simp [Pile.top?, Pile.toList]

namespace Interp

theorem height_stack (i : Interp) : i.stack.height = i.toStacks.values.length :=
  i.stack.length_toList.symm

theorem height_temps (i : Interp) : i.temps.height = i.toStacks.temps.length :=
  i.temps.length_toList.symm

end Interp

namespace Machine

variable {m m' m₁ m₂ : Machine} {b s : Stacks} {α β : Type}

/-! ### Steps on the stacks -/

@[simp] theorem toStacks_push (m : Machine) (h : Handle) : (m.push h).interp.toStacks
    = { m.interp.toStacks with values := m.interp.toStacks.values ++ [h] } := by
  simp [push, onInterp, Interp.toStacks]

@[simp] theorem toStacks_pushAll (m : Machine) (hs : List Handle) : (m.pushAll hs).interp.toStacks
    = { m.interp.toStacks with values := m.interp.toStacks.values ++ hs } := by
  simp [pushAll, onInterp, Interp.toStacks]

@[simp] theorem toStacks_truncate (m : Machine) (n : Nat) : (m.truncate n).interp.toStacks
    = { m.interp.toStacks with values := m.interp.toStacks.values.take n } := by
  simp [truncate, onInterp, Interp.toStacks, Pile.toList_cut]

@[simp] theorem toStacks_pushMark (m : Machine) :
    m.pushMark.interp.toStacks = m.interp.toStacks.withArguments [] := by
  simp [pushMark, onInterp, Interp.toStacks, withArguments, Pile.length_toList]

@[simp] theorem toStacks_dropMark (m : Machine) : m.dropMark.interp.toStacks
    = { m.interp.toStacks with marks := m.interp.toStacks.marks.dropLast } := by
  simp [dropMark, onInterp, Interp.toStacks]

@[simp] theorem toStacks_mortal (m : Machine) (h : Handle) : (m.mortal h).interp.toStacks
    = { m.interp.toStacks with temps := m.interp.toStacks.temps ++ [h] } := by
  simp [mortal, onInterp, Interp.toStacks]

theorem topMark_eq (m : Machine) : m.topMark = m.interp.toStacks.marks.getLast?.getD 0 := by
  rw [topMark, Pile.top?_eq]
  rfl

theorem above_eq (m : Machine) (n : Nat) : m.above n = m.interp.toStacks.values.drop n :=
  m.interp.stack.above_eq_drop n

theorem height_eq (m : Machine) : m.height = m.interp.toStacks.values.length :=
  m.interp.height_stack

theorem topMark_of_withArguments {args : List Handle}
    (hm : m.interp.toStacks = b.withArguments args) : m.topMark = b.values.length := by
  rw [topMark_eq, hm]
  simp [withArguments]

theorem dropMark_of_withArguments {args : List Handle}
    (hm : m.interp.toStacks = b.withArguments args) :
    m.dropMark.interp.toStacks = b.topped args := by
  rw [toStacks_dropMark, hm]
  simp [withArguments, topped]

/-- The results of a call are taken off again. -/
theorem truncate_kept (hm : b.Left n m.interp.toStacks) :
    b.Kept (m.truncate b.values.length).interp.toStacks := by
  obtain ⟨results, -, hk⟩ := hm
  rw [toStacks_truncate]
  refine ⟨?_, hk.marks, hk.contexts, hk.scopes, hk.temps, hk.floor⟩
  rw [hk.values]
  exact List.take_left

/-- What was on top is gone, so that results can take its place. -/
theorem truncate_left {vs : List Handle} (hm : m.interp.toStacks = b.topped vs) :
    b.Left 0 (m.truncate b.values.length).interp.toStacks := by
  have hleft : b.Left vs.length m.interp.toStacks := ⟨vs, rfl, by rw [hm]; exact .refl _⟩
  exact ⟨[], rfl, by rw [topped_nil]; exact truncate_kept hleft⟩

theorem push_left {n : Nat} (hm : b.Left n m.interp.toStacks) (h : Handle) :
    b.Left (n + 1) (m.push h).interp.toStacks := by
  obtain ⟨vs, rfl, hk⟩ := hm
  refine ⟨vs ++ [h], by simp, ?_⟩
  rw [toStacks_push, hk.values]
  exact ⟨by simp [topped], hk.marks, hk.contexts, hk.scopes, hk.temps, hk.floor⟩

theorem frame_eq {vs : List Handle} (hm : m.interp.toStacks = b.topped vs) :
    m.frame b.values.length
      = ⟨b.values.length, b.marks.length, b.contexts.length, b.scopes.length, b.floor⟩ := by
  have hb : b = { m.interp.toStacks with values := b.values } := by rw [hm]; rfl
  rw [hb]
  simp [frame, Interp.toStacks, Pile.length_toList]

/-- What has grown over a base is cut back to it by a frame with its root there. -/
theorem unwind_frame {vs : List Handle} (hm₁ : m₁.interp.toStacks = b.topped vs)
    (hm : b.Grown m.interp.toStacks) :
    b.Kept (m.unwind (m₁.frame b.values.length)).interp.toStacks := by
  rw [frame_eq hm₁]
  refine ⟨?_, ?_, ?_, ?_, hm.temps, rfl⟩
  · exact (Pile.toList_cut _ _).trans (List.prefix_iff_eq_take.1 hm.values).symm
  · exact (Pile.toList_cut _ _).trans (List.prefix_iff_eq_take.1 hm.marks).symm
  · exact (Pile.toList_cut _ _).trans (List.prefix_iff_eq_take.1 hm.contexts).symm
  · exact (Pile.toList_cut _ _).trans (List.prefix_iff_eq_take.1 hm.scopes).symm

/-- Settling leaves as many results as it counts. -/
theorem settle_left {results : List Handle} (hm : m.interp.toStacks = b.topped results)
    (want : Want) :
    b.Left (m.settle b.values.length want).1 (m.settle b.values.length want).2.interp.toStacks := by
  have hcut : (m.truncate b.values.length).interp.toStacks = b := by
    rw [toStacks_truncate, hm]
    simp [topped]
  cases want with
  | void =>
    refine ⟨[], rfl, ?_⟩
    simp only [settle, hcut, topped_nil]
    exact Kept.refl b
  | scalar =>
    refine ⟨[(m.above b.values.length).getLast?.getD m.interp.undefined], rfl, ?_⟩
    simp only [settle, toStacks_push, hcut]
    exact Kept.refl _
  | list =>
    refine ⟨results, ?_, hm ▸ Kept.refl _⟩
    rw [settle, above_eq, hm]
    simp [topped]

/-! ### Operations on the stacks of the interpreter in focus -/

/-- An operation that started in `m` ends with the interpreter of `m` in focus: with a result that
fits its stacks, or by an exit above a base. -/
def Lands (b : Stacks) (fits : α → Stacks → Prop) (m : Machine) :
    EStateM.Result Exit Machine α → Prop
  | .ok a m' => m'.here = m.here ∧ fits a m'.interp.toStacks
  | .error _ m' => m'.here = m.here ∧ b.Grown m'.interp.toStacks

namespace Lands

variable {fits : α → Stacks → Prop} {fits' : β → Stacks → Prop}

theorem mono {fits₁ : α → Stacks → Prop} {r : EStateM.Result Exit Machine α}
    (h : Lands b fits m r) (hf : ∀ a s, fits a s → fits₁ a s) : Lands b fits₁ m r := by
  cases r with
  | ok a m' => exact ⟨h.1, hf a _ h.2⟩
  | error e m' => exact h

/-- A lower base. -/
theorem lower {r : EStateM.Result Exit Machine α} (h : Lands s fits m r) (hb : b.Grown s) :
    Lands b fits m r := by
  cases r with
  | ok a m' => exact h
  | error e m' => exact ⟨h.1, hb.trans h.2⟩

/-- After a step that leaves the interpreter in focus. -/
theorem of_here {r : EStateM.Result Exit Machine α} (h : Lands b fits m₁ r)
    (hhere : m₁.here = m.here) : Lands b fits m r := by
  cases r with
  | ok a m' => exact ⟨h.1.trans hhere, h.2⟩
  | error e m' => exact ⟨h.1.trans hhere, h.2⟩

theorem bind {x : Run α} {f : α → Run β} (hx : Lands b fits m (x m))
    (hf : ∀ a m', m'.here = m.here → fits a m'.interp.toStacks → Lands b fits' m' (f a m')) :
    Lands b fits' m ((x >>= f) m) := by
  rw [Run.bind_apply]
  cases hr : x m with
  | ok a m₁ =>
    rw [hr] at hx
    exact (hf a m₁ hx.1 hx.2).of_here hx.1
  | error e m₁ => rw [hr] at hx; exact hx

end Lands

/-- Results put on top one after the other. -/
theorem pushes_lands {γ : Type} {step : γ → Run Unit}
    (hstep : ∀ c m b n, b.Left n m.interp.toStacks →
      Lands b (fun _ s => ∃ n, b.Left n s) m (step c m))
    (cs : List γ) {n : Nat} (hm : b.Left n m.interp.toStacks) :
    Lands b (fun _ s => ∃ n, b.Left n s) m (cs.forM step m) := by
  induction cs generalizing m n with
  | nil => exact ⟨rfl, n, hm⟩
  | cons c rest ih =>
    refine (hstep c m b n hm).bind fun _ m₁ _ h => ?_
    obtain ⟨n₁, hm₁⟩ := h
    exact ih hm₁

end Machine

open Machine

/-! ### The manner of operations that keep the stacks of the interpreter in focus -/

namespace Manner

/-- The stacks of the interpreter in focus are kept by what returns, and grow by what exits. -/
def atHome : Manner where
  returns m m' := m'.here = m.here ∧ m.interp.toStacks.Kept m'.interp.toStacks
  exits _ m m' := m'.here = m.here ∧ m.interp.toStacks.Grown m'.interp.toStacks
  fails _ m m' := m'.here = m.here ∧ m.interp.toStacks.Kept m'.interp.toStacks
  cleans m m' := m'.here = m.here ∧ m.interp.toStacks.Kept m'.interp.toStacks
  refl _ := ⟨rfl, .refl _⟩
  trans h h' := ⟨h'.1.trans h.1, h.2.trans h'.2⟩
  returns_of_cleans h := h
  cleans_refl _ := ⟨rfl, .refl _⟩
  cleans_trans h h' := ⟨h'.1.trans h.1, h.2.trans h'.2⟩
  gives_up _ _ _ := ⟨rfl, .refl _⟩
  exits_of_returns h h' := ⟨h'.1.trans h.1, h.2.grown.trans h'.2⟩
  exits_cleans h h' := ⟨h'.1.trans h.1, h.2.trans h'.2.grown⟩
  fails_of_returns h h' := ⟨h'.1.trans h.1, h.2.trans h'.2⟩
  fails_cleans h h' := ⟨h'.1.trans h.1, h.2.trans h'.2⟩
  fails_atArgument _ h := h

variable {α : Type} {m : Machine} {b : Stacks} {x : Run α}

theorem atHome_iff : x.Moves atHome ↔
    ∀ m, Lands m.interp.toStacks (fun _ => m.interp.toStacks.Kept) m (x m) := by
  refine forall_congr' fun m => ?_
  cases x m <;> rfl

/-- An operation across the boundary keeps the stacks whether it fails or not. -/
theorem atHome_outcome {x : Bridge α} : x.Moves atHome ↔ Run.Moves atHome x.run := by
  refine forall_congr' fun m => ?_
  rcases x.run m with (_ | _) | _ <;> rfl

/-- What keeps the stacks lands above any base below them. -/
theorem atHome_lands (hx : x.Moves atHome) (hm : b.Grown m.interp.toStacks) :
    Lands b (fun _ => m.interp.toStacks.Kept) m (x m) :=
  (atHome_iff.1 hx m).lower hm

theorem raise_lands {fits : α → Stacks → Prop} (f : Fault) (hm : b.Grown m.interp.toStacks) :
    Lands b fits m ((ValueMachine.raise f : Run α) m) :=
  ⟨(steady_raise f m).here, hm.trans (Everywhere.focused (steady_raise f m))⟩

theorem atHome_of_steady (hx : x.Moves steady) : x.Moves atHome := by
  intro m
  have h := hx m
  cases hr : x m with
  | ok a m' => rw [hr] at h; exact ⟨h.here, Everywhere.focused h⟩
  | error e m' => rw [hr] at h; exact ⟨h.here, Everywhere.focused h⟩

theorem atHome_of_returns {m m' : Machine} (h : steady.returns m m') : atHome.returns m m' :=
  ⟨h.here, Everywhere.focused h⟩

theorem atHome_raise (f : Fault) : (ValueMachine.raise f : Run α).Moves atHome :=
  atHome_of_steady fun m => steady_raise f m

theorem atHome_stores : atHome.Stores where
  alloc m _ h := atHome_of_returns (steady_plain.alloc m h)
  newCopy h := atHome_of_steady (steady_plain.newCopy h)
  retain m h := atHome_of_returns (steady_plain.retain m h)
  mortal m h := atHome_of_returns (steady_plain.mortal m h)
  global m s name := atHome_of_returns (steady_plain.global m s name)
  setArray ys h := atHome_of_returns (steady_plain.setArray ys h)
  setHash u h := atHome_of_returns (steady_plain.setHash u h)
  name m h c := atHome_of_returns (steady_plain.name m h c)
  release m h := atHome_of_returns (steady_plain.release m h)
  raise m f _ := atHome_raise (α := Unit) f m
  readHooks h := atHome_of_steady (steady_plain.readHooks h)
  store h _ hs := atHome_of_steady (steady_stores.store h hs)
  claim m i := atHome_of_returns (steady_stores.claim m i)
  attach m h w := atHome_of_returns (steady_stores.attach m h w)

theorem atHome_drops : atHome.Drops where
  toPlain := atHome_stores.toPlain
  fail _ _ := ⟨rfl, .refl _⟩
  drop m v := atHome_of_returns (steady_drop m v)

theorem atHome_assign (dst src : Handle) : (Machine.assign dst src).Moves atHome :=
  atHome_of_steady (steady_stepwise.assign dst src)

/-- A value is raised: the machine may have changed before the exit. -/
theorem atHome_raiseValue (h : Handle) : (raiseValue h : Run α).Moves atHome := by
  have hslot (m : Machine) : atHome.returns m m.errorSlot.2 :=
    atHome_of_returns (Still.errorSlot m).returns
  refine (Run.Moves.modifyGet hslot).bind fun slot => (atHome_assign slot h).bind fun _ m => ?_
  exact ⟨rfl, .refl _⟩

theorem atHome_message (f : Failure) : f.message.Moves atHome :=
  atHome_of_steady (steady_crosses.message f)

end Manner

end ValueMachine
